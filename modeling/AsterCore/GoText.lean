import AsterCore.GoStrings
import Mathlib.Data.List.Basic

namespace AsterCore

open List

/-- No space at either end. -/
def Trimmed (cs : List Char) : Prop :=
  (∀ c ∈ cs.head?, isSpace c = false) ∧ ∀ c ∈ cs.getLast?, isSpace c = false

instance (cs : List Char) : Decidable (Trimmed cs) :=
  @instDecidableAnd _ _ (Option.decidableForallMem cs.head?) (Option.decidableForallMem cs.getLast?)

/-- A text without any space. -/
def Plain (cs : List Char) : Prop := ∀ c ∈ cs, isSpace c = false

variable {cs : List Char} {s : String} {c : Char}

theorem Plain.trimmed (hp : Plain cs) : Trimmed cs :=
  ⟨fun c hc => hp c (mem_of_mem_head? hc), fun c hc => hp c (mem_of_getLast? hc)⟩

theorem dropWhile_of_head (h : ∀ c ∈ cs.head?, isSpace c = false) : cs.dropWhile isSpace = cs := by
  cases cs with
  | nil => rfl
  | cons c => rw [dropWhile_cons_of_neg (by simp [h c rfl])]

theorem head?_dropWhile (cs : List Char) : ∀ c ∈ (cs.dropWhile isSpace).head?, isSpace c = false := by
  intro c hc
  have hs := head?_dropWhile_not isSpace cs
  rw [hc] at hs
  simpa using hs

theorem trimSpaceList_of_trimmed (h : Trimmed cs) : trimSpaceList cs = cs := by
  unfold trimSpaceList
  rw [dropWhile_of_head h.1, dropWhile_of_head (by rw [head?_reverse]; exact h.2), reverse_reverse]

theorem trimSpaceList_sublist (cs : List Char) : (trimSpaceList cs).Sublist cs := by
  have hi : ((cs.dropWhile isSpace).reverse.dropWhile isSpace).Sublist (cs.dropWhile isSpace).reverse :=
    dropWhile_sublist _
  have ho := hi.reverse
  rw [reverse_reverse] at ho
  exact ho.trans (dropWhile_sublist _)

theorem trimSpaceList_trimmed (cs : List Char) : Trimmed (trimSpaceList cs) := by
  unfold trimSpaceList
  generalize hds : cs.dropWhile isSpace = ds
  have first : ∀ c ∈ ds.head?, isSpace c = false := by
    rw [← hds]
    exact head?_dropWhile cs
  refine ⟨?_, ?_⟩
  · -- what is dropped at the end leaves the first character, or nothing
    intro c hc
    rw [head?_reverse] at hc
    have suffix : ds.reverse.dropWhile isSpace <:+ ds.reverse := dropWhile_suffix _
    obtain ⟨_, eq⟩ := suffix
    have last : c ∈ ds.reverse.getLast? := by
      rw [← eq, getLast?_append, hc]
      rfl
    rw [getLast?_reverse] at last
    exact first c last
  · rw [getLast?_reverse]
    exact head?_dropWhile ds.reverse

theorem trimSpaceList_eq_self_iff : trimSpaceList cs = cs ↔ Trimmed cs :=
  ⟨fun h => h ▸ trimSpaceList_trimmed cs, trimSpaceList_of_trimmed⟩

theorem trimSpaceList_map {f : Char → Char} (hk : ∀ c, isSpace (f c) = isSpace c) (cs : List Char) :
    trimSpaceList (cs.map f) = (trimSpaceList cs).map f := by
  have hs : isSpace ∘ f = isSpace := funext hk
  unfold trimSpaceList
  rw [dropWhile_map, ← map_reverse, dropWhile_map, hs, ← map_reverse]

@[simp] theorem toList_trimSpace (s : String) : (trimSpace s).toList = trimSpaceList s.toList := by
  simp [trimSpace]

theorem trimSpace_of_trimmed (h : Trimmed s.toList) : trimSpace s = s := by
  rw [trimSpace, trimSpaceList_of_trimmed h, String.ofList_toList]

theorem trimSpace_idem (s : String) : trimSpace (trimSpace s) = trimSpace s := by
  apply trimSpace_of_trimmed
  rw [toList_trimSpace]
  exact trimSpaceList_trimmed _

theorem fields_of_plain (hp : Plain s.toList) : fields s = if s = "" then [] else [s] := by
  unfold fields
  rw [splitOnP_eq_singleton hp]
  by_cases he : s = ""
  · subst he
    rfl
  · have some : s.toList.isEmpty = false := by
      rw [isEmpty_eq_false_iff]
      exact fun h => he (String.toList_eq_nil_iff.mp h)
    simp [he]

theorem fields_append {word : List Char} (plain : Plain word) (some : word ≠ []) {sep : Char} (space : isSpace sep = true)
    (rest : List Char) : fields (String.ofList (word ++ sep :: rest)) = String.ofList word :: fields (String.ofList rest) := by
  have kept : word.isEmpty = false := isEmpty_eq_false_iff.mpr some
  unfold fields
  rw [String.toList_ofList, splitOnP_append_cons_of_forall_mem plain sep space rest, String.toList_ofList,
    filter_cons_of_pos (by simp [kept]), map_cons]

/-- The pieces hold no separator, and every other character is in one of them. -/
theorem splitOnP_pieces (p : Char → Bool) (cs : List Char) :
    (∀ piece ∈ cs.splitOnP p, ∀ c ∈ piece, p c = false) ∧
      ∀ c ∈ cs, p c = false → ∃ piece ∈ cs.splitOnP p, c ∈ piece := by
  induction cs with
  | nil =>
    refine ⟨?_, nofun⟩
    intro _ member c hc
    rw [mem_singleton.mp member] at hc
    cases hc
  | cons x cs ih =>
    obtain ⟨plain, found⟩ := ih
    rw [splitOnP_cons_eq_if_modifyHead]
    split
    next sep =>
      refine ⟨?_, fun c hc other => ?_⟩
      · intro piece member c hc
        rcases mem_cons.mp member with rfl | old
        · cases hc
        · exact plain piece old c hc
      · rcases mem_cons.mp hc with rfl | old
        · rw [sep] at other
          cases other
        · obtain ⟨piece, member, here⟩ := found c old other
          exact ⟨piece, mem_cons_of_mem _ member, here⟩
    next other =>
      cases pieces : cs.splitOnP p with
      | nil => exact absurd pieces (splitOnP_ne_nil p cs)
      | cons first =>
        rw [pieces] at plain found
        refine ⟨?_, fun c hc outside => ?_⟩
        · intro piece member c hc
          rcases mem_cons.mp member with rfl | old
          · rcases mem_cons.mp hc with rfl | inner
            · simpa using other
            · exact plain first mem_cons_self c inner
          · exact plain piece (mem_cons_of_mem _ old) c hc
        · rcases mem_cons.mp hc with rfl | old
          · exact ⟨c :: first, mem_cons_self, mem_cons_self⟩
          · obtain ⟨piece, member, here⟩ := found c old outside
            rcases mem_cons.mp member with rfl | later
            · exact ⟨x :: piece, mem_cons_self, mem_cons_of_mem _ here⟩
            · exact ⟨piece, mem_cons_of_mem _ later, here⟩

theorem fields_ne_nil (hm : c ∈ s.toList) (ho : isSpace c = false) : fields s ≠ [] := by
  obtain ⟨piece, hh, hi⟩ := (splitOnP_pieces isSpace s.toList).2 c hm ho
  have hs := isEmpty_eq_false_iff.mpr (ne_nil_of_mem hi)
  intro hn
  have hf : String.ofList piece ∈ fields s :=
    mem_map_of_mem (mem_filter.mpr ⟨hh, by simp [hs]⟩)
  rw [hn] at hf
  cases hf

theorem fields_mem {field : String} (h : field ∈ fields s) : field ≠ "" ∧ Plain field.toList := by
  obtain ⟨piece, member, rfl⟩ := mem_map.mp h
  obtain ⟨member, hs⟩ := mem_filter.mp member
  refine ⟨?_, ?_⟩
  · intro empty
    have nil : piece = [] := by
      rw [← String.toList_ofList (l := piece), empty]
      rfl
    simp [nil] at hs
  · rw [String.toList_ofList]
    intro c hc
    exact (splitOnP_pieces isSpace s.toList).1 piece member c hc

theorem fields_joinWith {words : List String} (plain : ∀ word ∈ words, word ≠ "" ∧ Plain word.toList) :
    fields (joinWith " " words) = words := by
  induction words with
  | nil => rfl
  | cons word words ih =>
    obtain ⟨some, first⟩ := plain word mem_cons_self
    cases words with
    | nil =>
      rw [joinWith, fields_of_plain first, if_neg some]
    | cons next words =>
      have text : joinWith " " (word :: next :: words) =
          String.ofList (word.toList ++ ' ' :: (joinWith " " (next :: words)).toList) := by
        rw [joinWith]
        · apply String.toList_injective
          simp
        · intro h
          cases h
      rw [text, fields_append first (fun h => some (String.toList_eq_nil_iff.mp h)) rfl, String.ofList_toList,
        String.ofList_toList, ih (fun w hw => plain w (mem_cons_of_mem _ hw))]

/-- A text without outer spaces that is joined to a text without any was one word already. -/
theorem joinWith_fields_of_plain (trimmed : Trimmed s.toList)
    (plain : Plain (joinWith " " (fields s)).toList) : joinWith " " (fields s) = s := by
  by_cases inner : Plain s.toList
  · rw [fields_of_plain inner]
    split
    next empty => exact empty.symm
    · rfl
  · -- a space inside leaves two words, and they are joined by a space
    exfalso
    generalize hword : s.toList.takeWhile (fun c => !isSpace c) = word
    generalize hrest : s.toList.dropWhile (fun c => !isSpace c) = rest
    have split : s.toList = word ++ rest := by
      rw [← hword, ← hrest, takeWhile_append_dropWhile]
    have first : Plain word := by
      intro c hc
      rw [← hword] at hc
      have held := all_eq_true.mp (all_takeWhile (p := fun c => !isSpace c) (l := s.toList)) c hc
      simpa using held
    cases rest with
    | nil =>
      rw [append_nil] at split
      exact inner (split ▸ first)
    | cons sep rest =>
      have space : isSpace sep = true := by
        have stop := head?_dropWhile_not (fun c => !isSpace c) s.toList
        rw [hrest] at stop
        simpa using stop
      have some : word ≠ [] := by
        rintro rfl
        have head := trimmed.1 sep (by rw [split]; rfl)
        rw [space] at head
        cases head
      have more : fields (String.ofList rest) ≠ [] := by
        cases last : s.toList.getLast? with
        | none =>
          rw [getLast?_eq_none_iff.mp last] at split
          simp at split
        | some c =>
          have other := trimmed.2 c last
          rw [split, getLast?_append_cons] at last
          rcases mem_cons.mp (mem_of_getLast? last) with rfl | member
          · rw [space] at other
            cases other
          · exact fields_ne_nil (by rw [String.toList_ofList]; exact member) other
      have words : fields s = String.ofList word :: fields (String.ofList rest) := by
        rw [← fields_append first some space, ← split, String.ofList_toList]
      cases tail : fields (String.ofList rest) with
      | nil => exact more tail
      | cons =>
        rw [words, tail] at plain
        have blank := plain ' ' (by rw [joinWith] <;> simp)
        cases blank

theorem joinWith_trimmed {words : List String} (plain : ∀ word ∈ words, word ≠ "" ∧ Plain word.toList) :
    Trimmed (joinWith " " words).toList := by
  induction words with
  | nil => exact Plain.trimmed (nofun)
  | cons word words ih =>
    obtain ⟨some, hf⟩ := plain word mem_cons_self
    cases words with
    | nil => exact hf.trimmed
    | cons next words =>
      have rest := ih (fun w hw => plain w (mem_cons_of_mem _ hw))
      have text : (joinWith " " (word :: next :: words)).toList =
          word.toList ++ ' ' :: (joinWith " " (next :: words)).toList := by
        rw [joinWith] <;> simp
      have full : (joinWith " " (next :: words)).toList ≠ [] := by
        obtain ⟨hp, _⟩ := plain next (by simp)
        have hl : next.toList ≠ [] := fun h => hp (String.toList_eq_nil_iff.mp h)
        cases words with
        | nil => exact hl
        | cons =>
          rw [joinWith]
          · simp [hl]
          · simp
      rw [text]
      refine ⟨fun c hc => ?_, fun c hc => ?_⟩
      · rw [head?_append_of_ne_nil _ (fun h => some (String.toList_eq_nil_iff.mp h))] at hc
        exact hf.trimmed.1 c hc
      · rw [getLast?_append_cons, getLast?_cons_of_ne_nil full] at hc
        exact rest.2 c hc

theorem decimalValue_toDigits (n : Nat) : decimalValue (Nat.toDigits 10 n) = n := by
  have hf : ∀ (cs : List Char) (start : Nat),
      cs.foldl (fun n c => 10 * n + (c.toNat - '0'.toNat)) start = Nat.ofDigitChars 10 cs start := by
    intro cs
    induction cs with
    | nil => exact fun _ => rfl
    | cons =>
      intro _
      rfl
  unfold decimalValue
  rw [hf, Nat.ofDigitChars_toDigits (by decide) (by decide)]

theorem toDigits_isDigit {n : Nat} (h : c ∈ Nat.toDigits 10 n) : c.isDigit = true :=
  Nat.isDigit_of_mem_toDigits (by decide) (by decide) h

theorem isSpace_of_isDigit (hd : c.isDigit = true) : isSpace c = false := by
  have range : 48 ≤ c.toNat ∧ c.toNat ≤ 57 := by
    have := Char.isDigit_iff_toNat.mp hd
    exact this
  unfold isSpace
  simp only [mem_cons, not_mem_nil, or_false, Bool.or_eq_false_iff, Bool.and_eq_false_iff, decide_eq_false_iff_not]
  omega

end AsterCore
