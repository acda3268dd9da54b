import Mathlib.Data.List.Basic
import Mathlib.Data.BitVec

namespace AsterCore.GoBinary

open List

/-- What a read of a stream can fail with; an index out of range is a panic. -/
inductive ReadError
  | eof
  | unexpectedEOF
  | message (text : String)
  | indexOutOfRange
  deriving DecidableEq, Repr

def failIf (bad : Prop) [Decidable bad] (e : ReadError) : Except ReadError Unit := if bad then .error e else .ok ()

theorem failIf_ok {bad : Prop} [Decidable bad] {e : ReadError} : failIf bad e = .ok () ↔ ¬ bad := by
  unfold failIf
  split
  next h => simp [h]
  next h => simp [h]

variable {α : Type} {n : Nat}

theorem failIf_bind {bad : Prop} [Decidable bad] {e : ReadError} {next : Unit → Except ReadError α} {result : α} :
    (failIf bad e >>= next) = .ok result ↔ ¬ bad ∧ next () = .ok result := by
  unfold failIf
  split
  next h => simp [h, bind, Except.bind]
  next h => simp [h, bind, Except.bind]

theorem bind_ok {β : Type} {x : Except ReadError α} {next : α → Except ReadError β} {result : β} :
    (x >>= next) = .ok result ↔ ∃ a, x = .ok a ∧ next a = .ok result := by
  cases x with
  | error e | ok a => simp [bind, Except.bind]

/-- `io.ReadFull` of as many bytes as asked for, from the bytes that are left. -/
def readFull (n : Nat) (r : List UInt8) : Except ReadError (List UInt8 × List UInt8) :=
  if n ≤ r.length then .ok (r.take n, r.drop n) else .error (if r = [] then .eof else .unexpectedEOF)

def putUint64 (v : BitVec 64) : List UInt8 :=
  [56, 48, 40, 32, 24, 16, 8, 0].map fun shift => UInt8.ofNat (v.toNat / 2 ^ shift)

def uint64 (b : List UInt8) : BitVec 64 := BitVec.ofNat 64 (b.foldl (fun acc x => acc * 256 + x.toNat) 0)

theorem length_putUint64 (v : BitVec 64) : (putUint64 v).length = 8 := rfl

theorem readFull_append {p : List UInt8} (hl : p.length = n) (rest : List UInt8) : readFull n (p ++ rest) = .ok (p, rest) := by
  subst hl
  simp [readFull]

theorem length_readFull {r p rest : List UInt8} (h : readFull n r = .ok (p, rest)) : p.length = n := by
  unfold readFull at h
  split at h <;> cases h
  next le => exact length_take_of_le le

theorem drop_flatMap {f : α → List UInt8} (hl : ∀ a, (f a).length = n) {l : List α} {i : Nat} {a : α}
    (hh : l[i]? = some a) : ∃ rest, (l.flatMap f).drop (i * n) = f a ++ rest := by
  induction l generalizing i with
  | nil => cases hh
  | cons b l ih =>
    cases i with
    | zero =>
      cases hh
      exact ⟨l.flatMap f, by simp⟩
    | succ =>
      obtain ⟨rest, eq⟩ := ih hh
      refine ⟨rest, ?_⟩
      rw [flatMap_cons, Nat.succ_mul, Nat.add_comm, ← drop_drop, drop_left' (hl b), eq]

theorem length_flatMap_chunks {f : α → List UInt8} (hl : ∀ a, (f a).length = n) (l : List α) :
    (l.flatMap f).length = l.length * n := by
  induction l with
  | nil => simp
  | cons _ _ ih => rw [flatMap_cons, length_append, hl, ih, length_cons, Nat.succ_mul, Nat.add_comm]

theorem toInt_ofNat_small (small : n < 2 ^ 63) : (BitVec.ofNat 64 n).toInt = n := by
  have hv : (BitVec.ofNat 64 n).toNat = n := by
    rw [BitVec.toNat_ofNat]
    omega
  rw [BitVec.toInt_eq_toNat_of_lt (by omega), hv]

def bigEndian : Nat → Nat → List UInt8
  | 0, _ => []
  | n + 1, v => bigEndian n (v / 256) ++ [UInt8.ofNat v]

def fromBigEndian (b : List UInt8) : Nat := b.foldl (fun acc x => acc * 256 + x.toNat) 0

theorem length_bigEndian (n v : Nat) : (bigEndian n v).length = n := by
  induction n generalizing v with
  | zero => rfl
  | succ _ ih => rw [bigEndian, length_append, ih]; rfl

theorem fromBigEndian_bigEndian (n v : Nat) : fromBigEndian (bigEndian n v) = v % 256 ^ n := by
  induction n generalizing v with
  | zero => simp [bigEndian, fromBigEndian, Nat.mod_one]
  | succ n ih =>
    have hs : fromBigEndian (bigEndian (n + 1) v) = fromBigEndian (bigEndian n (v / 256)) * 256 + v % 256 := by
      simp [bigEndian, fromBigEndian]
    rw [hs, ih, Nat.pow_succ, Nat.mul_comm (256 ^ n), Nat.mod_mul]
    omega

theorem bigEndian_add (m n v : Nat) : bigEndian (m + n) v = bigEndian m (v / 256 ^ n) ++ bigEndian n v := by
  induction n generalizing v with
  | zero => simp [bigEndian]
  | succ _ ih =>
    rw [← Nat.add_assoc, bigEndian, ih, bigEndian, append_assoc, Nat.div_div_eq_div_mul, Nat.pow_succ, Nat.mul_comm 256]

theorem bigEndian_congr {v w : Nat} (same : v % 256 ^ n = w % 256 ^ n) : bigEndian n v = bigEndian n w := by
  induction n generalizing v w with
  | zero => rfl
  | succ n ih =>
    rw [Nat.pow_succ, Nat.mul_comm] at same
    have hh : v / 256 % 256 ^ n = w / 256 % 256 ^ n := by
      rw [← Nat.mod_mul_right_div_self, ← Nat.mod_mul_right_div_self, same]
    have low : v % 256 = w % 256 := by rw [← Nat.mod_mul_right_mod v 256 (256 ^ n), ← Nat.mod_mul_right_mod w 256 (256 ^ n), same]
    have byte : UInt8.ofNat v = UInt8.ofNat w := UInt8.toNat_inj.mp (by simpa using low)
    rw [bigEndian, bigEndian, ih hh, byte]

theorem putUint64_eq (v : BitVec 64) : putUint64 v = bigEndian 8 v.toNat := by
  simp [putUint64, bigEndian, Nat.div_div_eq_div_mul]

theorem uint64_putUint64 (v : BitVec 64) : uint64 (putUint64 v) = v := by
  have hv : uint64 (putUint64 v) = BitVec.ofNat 64 (fromBigEndian (bigEndian 8 v.toNat)) := by rw [putUint64_eq]; rfl
  rw [hv, fromBigEndian_bigEndian, Nat.mod_eq_of_lt (by exact v.isLt), BitVec.ofNat_toNat, BitVec.setWidth_eq]

theorem uint64_chunks (values : List (BitVec 64)) :
    ((List.range values.length).map fun i => uint64 (((values.flatMap putUint64).drop (i * 8)).take 8)) = values := by
  refine ext_getElem? fun i => ?_
  rw [getElem?_map]
  by_cases hi : i < values.length
  · have hh := getElem?_eq_getElem hi
    obtain ⟨_, eq⟩ := drop_flatMap length_putUint64 hh
    rw [getElem?_range hi, hh, Option.map_some, eq, take_left' (length_putUint64 _), uint64_putUint64]
  · rw [getElem?_eq_none (by simpa using hi), getElem?_eq_none (by omega)]
    rfl

def bufferWrite (s p : List UInt8) : Except ReadError (List UInt8) := .ok (s ++ p)

end AsterCore.GoBinary
