import Mathlib.Algebra.Ring.Nat
import Mathlib.Data.List.Basic

namespace AsterCore.BitWords

open List

/-- Bit `i` of a bitmap in 64-bit words, the words after the last being zero. -/
def bitAt (bm : List (BitVec 64)) (i : Nat) : Bool := ((bm[i / 64]?).getD 0#64).getLsbD (i % 64)

/-- Sets bit `i` if `v` is true, after the bitmap has been extended with zero words to hold it. -/
def setBit (bm : List (BitVec 64)) (i : Nat) (v : Bool) : List (BitVec 64) :=
  (bm ++ List.replicate (i / 64 + 1 - bm.length) 0#64).modify (i / 64) (· ||| ((if v then 1#64 else 0#64) <<< (i % 64)))

/-- Bit `i`; nothing stands for an index out of range. -/
def getBit (bm : List (BitVec 64)) (i : Nat) : Option Bool := (bm[i / 64]?).map fun w => w &&& (1#64 <<< (i % 64)) != 0#64

def wordBits (w : BitVec 64) : List Bool := (List.range 64).map w.getLsbD

def onesCount (w : BitVec 64) : Nat := (wordBits w).count true

structure Holds (bm : List (BitVec 64)) (bs : List Bool) : Prop where
  bits : ∀ i, bitAt bm i = (bs[i]?).getD false
  short : bm.length ≤ (bs.length + 63) / 64

theorem holds_nil : Holds [] [] := ⟨fun _ => by simp [bitAt], by simp⟩

theorem length_setBit (bm : List (BitVec 64)) (i : Nat) (v : Bool) : (setBit bm i v).length = max bm.length (i / 64 + 1) := by
  simp only [setBit, length_modify, length_append, length_replicate]
  omega

theorem getLsbD_one_shift (k : Nat) {j : Nat} (bound : j < 64) : (1#64 <<< k).getLsbD j = (k == j) := by
  rw [BitVec.getLsbD_shiftLeft, Bool.eq_iff_iff]
  simp
  omega

theorem bitAt_append_zeros (bm : List (BitVec 64)) (n i : Nat) : bitAt (bm ++ List.replicate n 0#64) i = bitAt bm i := by
  unfold bitAt
  by_cases hi : i / 64 < bm.length
  · rw [getElem?_append_left hi]
  · rw [getElem?_append_right (by omega), getElem?_replicate, getElem?_eq_none (by omega)]
    split <;> rfl

theorem bitAt_or (bm : List (BitVec 64)) {k : Nat} (mask : BitVec 64) (hi : k < bm.length) (i : Nat) :
    bitAt (bm.modify k (· ||| mask)) i = (bitAt bm i || (decide (k = i / 64) && mask.getLsbD (i % 64))) := by
  unfold bitAt
  rw [getElem?_modify]
  by_cases hw : k = i / 64
  · rw [getElem?_eq_getElem (hw ▸ hi)]
    simp [hw]
  · rw [decide_eq_false hw, Bool.false_and]
    cases bm[i / 64]? <;> simp [hw]

theorem bitAt_setBit (bm : List (BitVec 64)) (i j : Nat) (v : Bool) :
    bitAt (setBit bm i v) j = (bitAt bm j || (v && i == j)) := by
  have hi : i / 64 < (bm ++ replicate (i / 64 + 1 - bm.length) 0#64).length := by
    simp only [length_append, length_replicate]
    omega
  have bound : j % 64 < 64 := Nat.mod_lt j (by omega)
  rw [setBit, bitAt_or _ _ hi, bitAt_append_zeros]
  congr 1
  cases v with
  | false => simp
  | true =>
    rw [if_pos rfl, Bool.eq_iff_iff]
    simp
    omega

theorem getElem?_append_one (bs : List Bool) (v : Bool) (i : Nat) :
    ((bs ++ [v])[i]?).getD false = ((bs[i]?).getD false || (v && bs.length == i)) := by
  rcases Nat.lt_trichotomy i bs.length with hl | hs | more
  · rw [getElem?_append_left hl]
    have : (bs.length == i) = false := by rw [beq_eq_false_iff_ne]; omega
    simp [this]
  · subst hs
    simp
  · have : (bs.length == i) = false := by rw [beq_eq_false_iff_ne]; omega
    rw [getElem?_eq_none (by simp; omega), getElem?_eq_none (by omega), this]
    simp

variable {bm : List (BitVec 64)} {bs : List Bool} {i : Nat}

theorem Holds.set (h : Holds bm bs) (v : Bool) : Holds (setBit bm bs.length v) (bs ++ [v]) := by
  refine ⟨fun i => ?_, ?_⟩
  · rw [bitAt_setBit, getElem?_append_one, h.bits]
  · have := h.short
    rw [length_setBit, length_append, length_singleton]
    omega

theorem Holds.skip (h : Holds bm bs) : Holds bm (bs ++ [false]) := by
  refine ⟨fun i => ?_, ?_⟩
  · rw [getElem?_append_one, h.bits, Bool.false_and, Bool.or_false]
  · have := h.short
    rw [length_append]
    omega

theorem lt_length_of_bitAt (one : bitAt bm i = true) : i / 64 < bm.length := by
  by_contra ho
  rw [bitAt, getElem?_eq_none (by omega)] at one
  simp at one

theorem Holds.length_eq (h : Holds bm bs) (hl : bs.getLast? = some true) : bm.length = (bs.length + 63) / 64 := by
  have short := h.short
  have one : bitAt bm (bs.length - 1) = true := by
    rw [h.bits, ← getLast?_eq_getElem?, hl]
    rfl
  have := lt_length_of_bitAt one
  omega

theorem getBit_eq (hi : i / 64 < bm.length) : getBit bm i = some (bitAt bm i) := by
  have hb : i % 64 < 64 := Nat.mod_lt i (by omega)
  rw [getBit, bitAt, getElem?_eq_getElem hi]
  simp only [Option.map_some, Option.getD_some, Option.some.injEq]
  generalize bm[i / 64] = w
  have hm : ∀ j, j < 64 → (w &&& (1#64 <<< (i % 64))).getLsbD j = (w.getLsbD j && i % 64 == j) := by
    intro j hl
    rw [BitVec.getLsbD_and, getLsbD_one_shift _ hl]
  cases bit : w.getLsbD (i % 64) with
  | true =>
    refine bne_iff_ne.mpr fun hz => ?_
    have := hm (i % 64) hb
    rw [hz, bit] at this
    simp at this
  | false =>
    rw [bne_eq_false_iff_eq]
    refine BitVec.eq_of_getLsbD_eq fun j hl => ?_
    rw [hm j hl, BitVec.getLsbD_zero]
    by_cases hs : i % 64 = j
    · rw [← hs, bit, Bool.false_and]
    · simp [hs]

theorem getElem?_flatMap_wordBits (bm : List (BitVec 64)) (i : Nat) :
    (bm.flatMap wordBits)[i]? = if i < 64 * bm.length then some (bitAt bm i) else none := by
  induction bm generalizing i with
  | nil => simp
  | cons w bm ih =>
    have hw : (wordBits w).length = 64 := by simp [wordBits]
    rw [flatMap_cons]
    by_cases hf : i < 64
    · rw [getElem?_append_left (by omega), if_pos (by simp; omega)]
      have hin : i / 64 = 0 := by omega
      simp [wordBits, bitAt, hin, hf, Nat.mod_eq_of_lt hf]
    · rw [getElem?_append_right (by omega), hw, ih]
      have hin : i / 64 = (i - 64) / 64 + 1 := by omega
      have hr : i % 64 = (i - 64) % 64 := by omega
      simp only [bitAt, hin, hr, getElem?_cons_succ, length_cons]
      by_cases hi : i - 64 < 64 * bm.length
      · rw [if_pos hi, if_pos (by omega)]
      · rw [if_neg hi, if_neg (by omega)]

theorem Holds.flatMap_wordBits (h : Holds bm bs) (fits : bs.length ≤ 64 * bm.length) :
    bm.flatMap wordBits = bs ++ List.replicate (64 * bm.length - bs.length) false := by
  refine ext_getElem? fun i => ?_
  rw [getElem?_flatMap_wordBits, h.bits]
  by_cases hi : i < bs.length
  · rw [if_pos (by omega), getElem?_append_left hi, getElem?_eq_getElem hi]
    rfl
  · rw [getElem?_append_right (by omega), getElem?_replicate, getElem?_eq_none (by omega)]
    by_cases hw : i < 64 * bm.length
    · rw [if_pos hw, if_pos (by omega)]
      rfl
    · rw [if_neg hw, if_neg (by omega)]

theorem sum_onesCount (bm : List (BitVec 64)) : (bm.map onesCount).sum = (bm.flatMap wordBits).count true := by
  rw [count_flatMap]
  rfl

theorem Holds.sum_onesCount (h : Holds bm bs) (hf : bs.length ≤ 64 * bm.length) : (bm.map onesCount).sum = bs.count true := by
  rw [BitWords.sum_onesCount, h.flatMap_wordBits hf, count_append, count_replicate]
  simp

def selectOne : List Bool → Nat → Option Nat
  | [], _ => none
  | false :: bits, i => (selectOne bits i).map (· + 1)
  | true :: _, 0 => some 0
  | true :: bits, i + 1 => (selectOne bits i).map (· + 1)

theorem selectOne_append {front : List Bool} (few : front.count true ≤ i) (bits : List Bool) :
    selectOne (front ++ bits) i = (selectOne bits (i - front.count true)).map (· + front.length) := by
  induction front generalizing i with
  | nil => simp
  | cons b _ ih =>
    cases b with
    | false =>
      rw [cons_append, selectOne, ih (by simpa using few)]
      simp [Function.comp_def, Nat.add_assoc]
    | true =>
      rw [count_cons_self] at few
      obtain ⟨i, rfl⟩ : ∃ j, i = j + 1 := ⟨i - 1, by omega⟩
      rw [cons_append, selectOne, ih (by omega), count_cons_self]
      simp [Function.comp_def, Nat.add_assoc]

end AsterCore.BitWords
