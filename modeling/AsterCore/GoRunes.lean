import Mathlib.Data.List.Basic

namespace AsterCore

open List Char UInt8

/-- `RuneError`, what an invalid byte decodes to. -/
def runeError : Char := Char.ofNat 0xFFFD

/-- `utf8.DecodeRuneInString`: the first rune and its width, an invalid byte having width 1. -/
def decodeRune (s : List UInt8) : Char × Nat :=
  match s.toByteArray.utf8DecodeChar? 0 with
  | some c => (c, c.utf8Size)
  | none => (runeError, 1)

def runesFrom : Nat → List UInt8 → List Char
  | 0, _ => []
  | _ + 1, [] => []
  | n + 1, b :: s => (decodeRune (b :: s)).1 :: runesFrom n ((b :: s).drop (decodeRune (b :: s)).2)

def runes (s : List UInt8) : List Char := runesFrom s.length s

/-- The conversion of a `[]rune` to a string. -/
def encode (cs : List Char) : List UInt8 := cs.flatMap String.utf8EncodeChar

/-- `utf8.DecodeLastRuneInString` of a string: back to the first byte that may start a rune, at most
four bytes before the end. -/
def decodeLastRune (s : List UInt8) : Char :=
  match s.reverse with
  | [] => runeError
  | b :: before =>
    if b < 128 then Char.ofUInt8 b
    else
      let width := min s.length (((before.take 3).takeWhile fun x => x &&& 0xC0 == 0x80).length + 2)
      if (decodeRune (s.drop (s.length - width))).2 = width then (decodeRune (s.drop (s.length - width))).1
      else runeError

def asciiLower (c : UInt8) : UInt8 := if 65 ≤ c ∧ c ≤ 90 then c + 32 else c

/-- The tables of the `unicode` package. `ToLower` is the ASCII one on ASCII, and gives no upper case
ASCII letter. -/
structure Unicode where
  toLower : Char → Char
  isSpace : Char → Bool
  ascii : ∀ c : Char, c.toNat < 128 → toLower c = c.toLower
  lowered : ∀ c : Char, (toLower c).toLower = toLower c

theorem toLower_toLower (c : Char) : c.toLower.toLower = c.toLower := by
  unfold toLower
  split
  next upper =>
    rw [dif_neg]
    intro _
    grind
  · simp

def Unicode.asciiOnly : Unicode := ⟨Char.toLower, Char.isWhitespace, fun _ _ => rfl, toLower_toLower⟩

/-- `strings.ToLower`, with its path for ASCII strings; the other path replaces invalid bytes. -/
def Unicode.lower (u : Unicode) (s : List UInt8) : List UInt8 :=
  if s.all (· < 128) then s.map asciiLower else encode ((runes s).map u.toLower)

def reverseRunes (s : List UInt8) : List UInt8 := encode (runes s).reverse

@[simp] theorem encode_nil : encode [] = [] := rfl

@[simp] theorem encode_cons (c : Char) (cs : List Char) : encode (c :: cs) = String.utf8EncodeChar c ++ encode cs := rfl

@[simp] theorem encode_append (cs ds : List Char) : encode (cs ++ ds) = encode cs ++ encode ds := flatMap_append

theorem utf8EncodeChar_length (c : Char) : (String.utf8EncodeChar c).length = c.utf8Size := String.length_utf8EncodeChar c

theorem decodeRune_encode (c : Char) (s : List UInt8) : decodeRune (String.utf8EncodeChar c ++ s) = (c, c.utf8Size) := by
  unfold decodeRune
  rw [toByteArray_append, ByteArray.utf8DecodeChar?_utf8EncodeChar_append]

theorem runesFrom_encode (n : Nat) (cs : List Char) (he : (encode cs).length ≤ n) : runesFrom n (encode cs) = cs := by
  induction cs generalizing n with
  | nil => cases n <;> rfl
  | cons c cs ih =>
    have hwi := utf8EncodeChar_length c
    have hp := utf8Size_pos c
    rw [encode_cons, length_append] at he
    cases n with
    | zero => omega
    | succ n =>
      obtain ⟨b, s, hw⟩ : ∃ b s, encode (c :: cs) = b :: s := by
        refine exists_cons_of_ne_nil fun hn => ?_
        have := congrArg length hn
        simp at this
        omega
      rw [hw]
      show (decodeRune (b :: s)).1 :: runesFrom n ((b :: s).drop (decodeRune (b :: s)).2) = c :: cs
      rw [← hw, encode_cons, decodeRune_encode, ← hwi, drop_left, ih n (by omega)]

theorem runes_encode (cs : List Char) : runes (encode cs) = cs := runesFrom_encode _ cs (Nat.le_refl _)

theorem encode_injective {cs ds : List Char} (hs : encode cs = encode ds) : cs = ds := by
  rw [← runes_encode cs, hs, runes_encode]

theorem reverseRunes_encode (cs : List Char) : reverseRunes (encode cs) = encode cs.reverse := by
  rw [reverseRunes, runes_encode]

variable {b : UInt8} {α : Type}

theorem forall_ascii {p : UInt8 → Prop} (hc : ∀ n : Fin 128, p (ofNat n)) (hs : b < 128) : p b := by
  have hb := lt_iff_toNat_lt.mp hs
  have := hc ⟨b.toNat, hb⟩
  rwa [UInt8.ofNat_toNat] at this

theorem utf8EncodeChar_ofUInt8 (hs : b < 128) : String.utf8EncodeChar (ofUInt8 b) = [b] :=
  forall_ascii (p := fun b => String.utf8EncodeChar (ofUInt8 b) = [b]) (by decide) hs

theorem encode_ascii {s : List UInt8} (hs : ∀ b ∈ s, b < 128) : encode (s.map ofUInt8) = s := by
  induction s with
  | nil => rfl
  | cons b _ ih =>
    rw [map_cons, encode_cons, utf8EncodeChar_ofUInt8 (hs b (by simp)), ih fun x mem => hs x (by simp [mem])]
    rfl

theorem runes_ascii {s : List UInt8} (hs : ∀ b ∈ s, b < 128) : runes s = s.map ofUInt8 := by
  conv_lhs => rw [← encode_ascii hs]
  exact runes_encode _

theorem ofUInt8_small (hs : b < 128) : (ofUInt8 b).toNat < 128 :=
  forall_ascii (p := fun b => (ofUInt8 b).toNat < 128) (by decide) hs

theorem toLower_ofUInt8 (hs : b < 128) : (ofUInt8 b).toLower = ofUInt8 (asciiLower b) :=
  forall_ascii (p := fun b => (ofUInt8 b).toLower = ofUInt8 (asciiLower b)) (by decide) hs

theorem asciiLower_small (hs : b < 128) : asciiLower b < 128 :=
  forall_ascii (p := fun b => asciiLower b < 128) (by decide) hs

theorem Unicode.lower_eq (u : Unicode) (s : List UInt8) : u.lower s = encode ((runes s).map u.toLower) := by
  unfold Unicode.lower
  split
  next all =>
    have hs : ∀ b ∈ s, b < 128 := by simpa using all
    have hl : ∀ b ∈ s.map asciiLower, b < 128 := by
      intro b mem
      obtain ⟨a, ht, rfl⟩ := mem_map.mp mem
      exact asciiLower_small (hs a ht)
    rw [runes_ascii hs, ← encode_ascii hl, map_map, map_map]
    refine congrArg encode (map_congr_left fun b mem => ?_)
    show ofUInt8 (asciiLower b) = u.toLower (ofUInt8 b)
    rw [u.ascii _ (ofUInt8_small (hs b mem)), toLower_ofUInt8 (hs b mem)]
  · rfl

theorem utf8EncodeChar_ascii {c : Char} (hs : c.toNat < 128) : String.utf8EncodeChar c = [UInt8.ofNat c.toNat] := by
  have hl : c.val.toNat ≤ 127 := Nat.le_of_lt_succ hs
  simp only [String.utf8EncodeChar, if_pos hl]
  rfl

theorem le_of_mem_utf8EncodeChar {c : Char} (large : 128 ≤ c.toNat) (mem : b ∈ String.utf8EncodeChar c) : 128 ≤ b := by
  have hm : ¬ c.val.toNat ≤ 127 := by
    show ¬ c.toNat ≤ 127
    omega
  have hl : ∀ n, 128 ≤ n → n < 256 → (128 : UInt8) ≤ UInt8.ofNat n := by
    intro n low hh
    rw [le_iff_toNat_le, toNat_ofNat_of_lt' (by simpa using hh)]
    exact low
  simp only [String.utf8EncodeChar, if_neg hm] at mem
  split at mem
  · simp only [mem_cons, not_mem_nil, or_false] at mem
    rcases mem with rfl | rfl <;> exact hl _ (by omega) (by omega)
  split at mem
  · simp only [mem_cons, not_mem_nil, or_false] at mem
    rcases mem with rfl | rfl | rfl <;> exact hl _ (by omega) (by omega)
  · simp only [mem_cons, not_mem_nil, or_false] at mem
    rcases mem with rfl | rfl | rfl | rfl <;> exact hl _ (by omega) (by omega)

theorem mem_encode_ascii (hsm : b < 128) (cs : List Char) : b ∈ encode cs ↔ ofUInt8 b ∈ cs := by
  have hs : ∀ c : Char, b ∈ String.utf8EncodeChar c ↔ ofUInt8 b = c := by
    intro c
    by_cases ha : c.toNat < 128
    · rw [utf8EncodeChar_ascii ha, mem_singleton]
      constructor
      · rintro rfl
        have hc : ∀ n : Fin 128, Char.ofUInt8 (UInt8.ofNat n) = Char.ofNat n := by decide
        rw [hc ⟨c.toNat, ha⟩, ofNat_toNat]
      · rintro rfl
        exact forall_ascii (p := fun b => b = UInt8.ofNat (Char.ofUInt8 b).toNat) (by decide) hsm
    · constructor
      · intro mem
        have := le_of_mem_utf8EncodeChar (by omega) mem
        exact absurd hsm (by simpa using this)
      · rintro rfl
        exact absurd (ofUInt8_small hsm) ha
  induction cs with
  | nil => simp
  | cons _ _ ih => simp only [encode_cons, mem_append, mem_cons, hs, ih]

theorem intercalate_concat (s : α) {xs : List (List α)} (hs : xs ≠ []) (x : List α) :
    [s].intercalate (xs ++ [x]) = [s].intercalate xs ++ s :: x := by
  induction xs with
  | nil => exact absurd rfl hs
  | cons _ xs ih =>
    cases xs with
    | nil => simp
    | cons =>
      rw [cons_append, cons_append, intercalate_cons_cons,
        ← cons_append, ih (by simp)]
      simp

theorem reverse_intercalate (s : α) (xs : List (List α)) :
    ([s].intercalate xs).reverse = [s].intercalate (xs.reverse.map List.reverse) := by
  induction xs with
  | nil => rfl
  | cons x xs ih =>
    cases xs with
    | nil => simp
    | cons =>
      rw [intercalate_cons_cons, reverse_append, ih, reverse_cons (a := x), map_append,
        map_singleton, intercalate_concat s (by simp)]
      simp

theorem not_mem_of_mem_splitOn [DecidableEq α] {s : α} {xs l : List α} (mem : l ∈ xs.splitOn s) : s ∉ l := by
  induction xs generalizing l with
  | nil =>
    rw [splitOn_nil, mem_singleton] at mem
    simp [mem]
  | cons _ xs ih =>
    rw [splitOn_cons_eq_if_modifyHead] at mem
    split at mem
    · rcases mem_cons.mp mem with rfl | mem
      · simp
      · exact ih mem
    next ho =>
      obtain ⟨first, _, eq⟩ := exists_cons_of_ne_nil (splitOn_ne_nil s xs)
      rw [eq] at mem
      rcases mem_cons.mp mem with rfl | hl
      · have := ih (l := first) (by simp [eq])
        simp only [mem_cons, not_or]
        exact ⟨fun hs => ho (by simp [hs]), this⟩
      · exact ih (by simp [eq, hl])

theorem encode_intercalate (css : List (List Char)) : encode (['.'].intercalate css) = [46].intercalate (css.map encode) := by
  induction css with
  | nil => rfl
  | cons _ css ih =>
    cases css with
    | nil => simp
    | cons =>
      rw [intercalate_cons_cons, encode_append, encode_append, ih, map_cons, map_cons, map_cons,
        intercalate_cons_cons]
      rfl

theorem splitOn_encode (cs : List Char) : (encode cs).splitOn 46 = (cs.splitOn '.').map encode := by
  have hj : ['.'].intercalate (cs.splitOn '.') = cs := intercalate_splitOn '.'
  conv_lhs => rw [← hj]
  rw [encode_intercalate, splitOn_intercalate]
  · intro l mem hi
    obtain ⟨ds, ht, rfl⟩ := mem_map.mp mem
    exact not_mem_of_mem_splitOn ht ((mem_encode_ascii (by decide) ds).mp hi)
  · simp

end AsterCore
