import AsterCore.DomainHas
import AsterCore.DomainKeys

namespace AsterCore.Trie

open SortedWords Option

variable {T : Type}

def keysOf (P : List Label → Prop) : List UInt8 → Prop := fun w => ∃ path, P path ∧ w = key path

def below (l : Label) (P : List Label → Prop) : List Label → Prop := fun rest => rest ≠ [] ∧ P (l :: rest)

/-- A pattern has, in the place of the label, one that ends with the same byte, and the byte is before `*`. -/
def Hidden (P : List Label → Prop) (x : Label) : Prop :=
  ∃ b, (reverseRunes x).head? = some b ∧ b < 42 ∧ ∃ l rest, P (l :: rest) ∧ (keyLabel l).head? = some b

/-- The pattern matches the labels, and no other pattern hides one of its wildcards. -/
def Visible (P : List Label → Prop) : List Label → List Label → Prop
  | [], [] => True
  | l :: path, x :: xs =>
    if l = dotWildcard then ¬ Hidden P x
    else if l = wildcard then ¬ Hidden P x ∧ Visible (below l P) path xs
    else l = x ∧ Visible (below l P) path xs
  | _, _ => False

/-- A pattern as the set reads it on a host of any form: a wildcard needs something of the host in its place, which an empty
first label is not. -/
def Reads (P : List Label → Prop) : List Label → List Label → Prop
  | [], [] => True
  | l :: path, x :: xs =>
    if l = dotWildcard then ¬(x = [] ∧ xs = []) ∧ ¬ Hidden P x
    else if l = wildcard then ¬(x = [] ∧ xs = []) ∧ ¬ Hidden P x ∧ Reads (below l P) path xs
    else l = x ∧ Reads (below l P) path xs
  | _, _ => False

structure Regular (P : List Label → Prop) : Prop where
  some : ∀ {path}, P path → path ≠ []
  good : ∀ {path}, P path → ∀ l ∈ path, GoodLabel l
  named : ∀ {path}, P path → ∀ l ∈ path.dropLast, l ≠ []

variable {P : List Label → Prop} {l x : Label} {c : UInt8} {a : List UInt8} {M : List UInt8 → Prop} {xs : List Label}
  {t : DomainTrie T} {u : Unicode} {ops : List (Op T)}

theorem Regular.below (hr : Regular P) (l : Label) : Regular (below l P) where
  some := fun h => h.1
  good := fun h m mem => hr.good h.2 m (by simp [mem])
  named := by
    intro _ h m mem
    refine hr.named h.2 m ?_
    rw [List.dropLast_cons_of_ne_nil h.1]
    simp [mem]

structure HostLabel (x : Label) : Prop where
  text : ∃ cs, x = encode cs
  noStep : domainStep ∉ x

theorem key_cons (l : Label) {rest : List Label} (hm : rest ≠ []) : key (l :: rest) = keyLabel l ++ domainStep :: key rest := by
  obtain ⟨m, _, rfl⟩ := List.exists_cons_of_ne_nil hm
  simp [key]

theorem key_single (l : Label) : key [l] = keyLabel l := by simp [key]

theorem keyLabel_ne_nil (hg : GoodLabel l) : keyLabel l ≠ [] := by
  unfold keyLabel
  split
  · simp [complexWildcard]
  next hn => exact reverseRunes_ne_nil hg hn

theorem keyLabel_plus (hg : GoodLabel l) (hp : 43 ∈ keyLabel l) : l = [] := by
  unfold keyLabel at hp
  split at hp
  next dot => exact dot
  · exact absurd ((mem_reverseRunes hg.text (by decide)).mp hp) hg.noPlus

theorem keyLabel_star (hg : GoodLabel l) (hs : 42 ∈ keyLabel l) : l = wildcard := by
  unfold keyLabel at hs
  split at hs
  · simp [complexWildcard] at hs
  · exact hg.star ((mem_reverseRunes hg.text (by decide)).mp hs)

section

variable (regular : Regular P)

include regular

theorem keysOf_cases {w : List UInt8} :
    keysOf P w ↔ (∃ l, P [l] ∧ w = keyLabel l) ∨ ∃ l rest, below l P rest ∧ w = keyLabel l ++ domainStep :: key rest := by
  constructor
  · rintro ⟨_, hp, rfl⟩
    obtain ⟨l, rest, rfl⟩ := List.exists_cons_of_ne_nil (regular.some hp)
    by_cases hm : rest = []
    · subst hm
      exact .inl ⟨l, hp, key_single l⟩
    · exact .inr ⟨l, rest, ⟨hm, hp⟩, key_cons l hm⟩
  · rintro (⟨l, hp, rfl⟩ | ⟨l, rest, ⟨hm, hp⟩, rfl⟩)
    · exact ⟨[l], hp, (key_single l).symm⟩
    · exact ⟨l :: rest, hp, (key_cons l hm).symm⟩

theorem begins_keysOf (b : UInt8) : Begins (keysOf P) b ↔ ∃ l rest, P (l :: rest) ∧ (keyLabel l).head? = some b := by
  have hh : ∀ {l : Label} {tail w : List UInt8}, GoodLabel l → b :: w = keyLabel l ++ tail → (keyLabel l).head? = some b := by
    intro l _ w hg eq
    obtain ⟨c, _, hl⟩ := List.exists_cons_of_ne_nil (keyLabel_ne_nil hg)
    rw [hl] at eq ⊢
    exact congrArg some (List.cons.inj eq).1.symm
  constructor
  · rintro ⟨w, hw⟩
    rcases (keysOf_cases regular).mp hw with ⟨l, hp, eq⟩ | ⟨l, rest, ⟨_, hp⟩, eq⟩
    · exact ⟨l, [], hp, @hh l [] w (regular.good hp l (by simp)) (by simpa using eq)⟩
    · exact ⟨l, rest, hp, hh (regular.good hp l (by simp)) eq⟩
  · rintro ⟨l, rest, hp, hf⟩
    obtain ⟨tail, hl⟩ : ∃ tail, keyLabel l = b :: tail := by
      cases hl : keyLabel l with
      | nil =>
        rw [hl] at hf
        cases hf
      | cons _ tail =>
        rw [hl] at hf
        exact ⟨tail, by rw [some.inj hf]⟩
    by_cases hm : rest = []
    · subst hm
      exact ⟨tail, [l], hp, by rw [key_single, hl]⟩
    · exact ⟨tail ++ domainStep :: key rest, l :: rest, hp, by rw [key_cons l hm, hl]; rfl⟩

theorem hides_keysOf (hfi : (reverseRunes x).head? = some c) : Hides (keysOf P) c ↔ Hidden P x := by
  unfold Hides Hidden
  rw [begins_keysOf regular, hfi]
  constructor
  · rintro ⟨hs, hf⟩
    exact ⟨c, rfl, hs, hf⟩
  · rintro ⟨b, same, hs, hf⟩
    cases same
    exact ⟨hs, hf⟩

theorem begins_plus : Begins (keysOf P) 43 ↔ P [dotWildcard] := by
  rw [begins_keysOf regular]
  constructor
  · rintro ⟨l, rest, hp, hf⟩
    have dot := keyLabel_plus (regular.good hp l (by simp)) (List.mem_of_mem_head? hf)
    subst dot
    cases rest with
    | nil => exact hp
    | cons => exact absurd rfl (regular.named hp [] (by simp))
  · exact fun hp => ⟨dotWildcard, [], hp, rfl⟩

end

theorem takeWhile_label (hns : domainStep ∉ a) (t : List UInt8) :
    (a ++ t).takeWhile (· ≠ domainStep) = a ++ t.takeWhile (· ≠ domainStep) := by
  refine List.takeWhile_append_of_pos fun b mem => ?_
  simp only [decide_not, Bool.not_eq_true', decide_eq_false_iff_not]
  rintro rfl
  exact hns mem

theorem dropWhile_label (hns : domainStep ∉ a) (t : List UInt8) :
    (a ++ t).dropWhile (· ≠ domainStep) = t.dropWhile (· ≠ domainStep) := by
  refine List.dropWhile_append_of_pos fun b mem => ?_
  simp only [decide_not, Bool.not_eq_true', decide_eq_false_iff_not]
  rintro rfl
  exact hns mem

theorem residual_label (hr : Regular P) (hg : GoodLabel l) (w : List UInt8) :
    keysOf P (keyLabel l ++ domainStep :: w) ↔ keysOf (below l P) w := by
  have hf : ∀ {m : Label} (tail : List UInt8), GoodLabel m →
      (keyLabel m ++ domainStep :: tail).takeWhile (· ≠ domainStep) = keyLabel m := by
    intro m _ hg'
    rw [takeWhile_label (step_not_mem_keyLabel hg')]
    simp
  rw [keysOf_cases hr]
  constructor
  · rintro (⟨m, _, eq⟩ | ⟨m, rest, hp, eq⟩)
    · have hi : domainStep ∈ keyLabel m := by
        rw [← eq]
        simp
      exact absurd hi (step_not_mem_keyLabel (hr.good ‹_› m (by simp)))
    · have hg' := hr.good hp.2 m (by simp)
      have hl := congrArg (List.takeWhile (· ≠ domainStep)) eq
      rw [hf w hg, hf (key rest) hg'] at hl
      have hs := keyLabel_injective hg hg' hl
      subst hs
      have ht := List.append_cancel_left eq
      exact ⟨rest, hp, (List.cons.inj ht).2⟩
  · rintro ⟨rest, hp, rfl⟩
    exact .inr ⟨l, rest, hp, rfl⟩

theorem keysOf_label (hr : Regular P) (hg : GoodLabel l) : keysOf P (keyLabel l) ↔ P [l] := by
  rw [keysOf_cases hr]
  constructor
  · rintro (⟨m, hp, eq⟩ | ⟨m, _, _, eq⟩)
    · rwa [keyLabel_injective hg (hr.good hp m (by simp)) eq]
    · exact absurd (by rw [eq]; simp) (step_not_mem_keyLabel hg)
  · exact fun hp => .inl ⟨l, hp, rfl⟩

def Plain (M : List UInt8 → Prop) : Prop := ∀ w, M w → ∀ b ∈ w.takeWhile (· ≠ domainStep), b ≠ 42 ∧ b ≠ 43

def residuals (a : List UInt8) (M : List UInt8 → Prop) : List UInt8 → Prop := fun w => M (a ++ w)

section

variable (plain : Plain M)

include plain

theorem Plain.residual (hl : c ≠ domainStep) : Plain (residual c M) := by
  intro w hw b mem
  refine plain (c :: w) hw b ?_
  rw [List.takeWhile_cons_of_pos (by simpa using hl)]
  exact List.mem_cons_of_mem _ mem

theorem Plain.not_begins : ¬ Begins M 42 ∧ ¬ Begins M 43 := by
  refine ⟨fun ⟨w, hw⟩ => (plain _ hw 42 ?_).1 rfl, fun ⟨w, hw⟩ => (plain _ hw 43 ?_).2 rfl⟩
  · simp [domainStep]
  · simp [domainStep]

theorem Plain.accepts_cons (hns : c ≠ 42) (hnp : c ≠ 43)
    (q : List UInt8) : Accepts M (c :: q) ↔ Accepts (AsterCore.Trie.residual c M) q := by
  rw [accepts_cons_iff]
  constructor
  · rintro (⟨hp, _⟩ | ⟨_, _, hr⟩ | ⟨_, hs⟩)
    · exact absurd hp plain.not_begins.2
    · exact hr
    · exact absurd hs.begins plain.not_begins.1
  · exact fun hr => .inr (.inl ⟨hns, hnp, hr⟩)

theorem Plain.accepts_label (hl : ∀ b ∈ a, b ≠ 42 ∧ b ≠ 43 ∧ b ≠ domainStep) (t : List UInt8) :
    Accepts M (a ++ t) ↔ Accepts (residuals a M) t := by
  induction a generalizing M with
  | nil => rfl
  | cons b _ ih =>
    obtain ⟨hns, hnp, hle⟩ := hl b (by simp)
    rw [List.cons_append, plain.accepts_cons hns hnp, ih (plain.residual hle) fun d mem => hl d (by simp [mem])]
    rfl

theorem Plain.residuals (hns : domainStep ∉ a) : Plain (residuals a M) := by
  intro w hw b mem
  refine plain (a ++ w) hw b ?_
  rw [takeWhile_label hns]
  exact List.mem_append_right _ mem

end

theorem plain_keysOf (hr : Regular P) (hns : c ≠ 42) (hnp : c ≠ 43) (hl : c ≠ domainStep) : Plain (residual c (keysOf P)) := by
  intro w hw b mem
  have hla : ∀ {l : Label} {tail : List UInt8}, GoodLabel l → tail.takeWhile (· ≠ domainStep) = [] →
      c :: w = keyLabel l ++ tail → b ≠ 42 ∧ b ≠ 43 := by
    intro l _ hg he eq
    have hf := congrArg (List.takeWhile (· ≠ domainStep)) eq
    rw [takeWhile_label (step_not_mem_keyLabel hg), he, List.append_nil,
      List.takeWhile_cons_of_pos (by simpa using hl)] at hf
    have hi : b ∈ keyLabel l := by
      rw [← hf]
      exact List.mem_cons_of_mem _ mem
    refine ⟨?_, ?_⟩
    · rintro rfl
      rw [keyLabel_star hg hi] at hf
      exact hns (List.cons.inj hf).1
    · rintro rfl
      rw [keyLabel_plus hg hi] at hf
      exact hnp (List.cons.inj hf).1
  rcases (keysOf_cases hr).mp hw with ⟨l, hp, eq⟩ | ⟨l, rest, ⟨_, hp⟩, eq⟩
  · exact @hla l [] (hr.good hp l (by simp)) rfl (by simpa using eq)
  · exact hla (hr.good hp l (by simp)) (by simp) eq

def queryKey (xs : List Label) : List UInt8 := [domainStep].intercalate (xs.map reverseRunes)

def queryTail (xs : List Label) : List UInt8 := if xs = [] then [] else domainStep :: queryKey xs

theorem queryKey_cons (x : Label) (xs : List Label) : queryKey (x :: xs) = reverseRunes x ++ queryTail xs := by
  unfold queryTail
  split
  next hn =>
    subst hn
    simp [queryKey]
  next hs =>
    obtain ⟨y, _, rfl⟩ := List.exists_cons_of_ne_nil hs
    simp [queryKey]

theorem dropWhile_queryTail (xs : List Label) : (queryTail xs).dropWhile (· ≠ domainStep) = queryTail xs := by
  unfold queryTail
  split <;> simp

def Found (P : List Label → Prop) (xs : List Label) : Prop := ∃ path, P path ∧ Visible P path xs

def Read (P : List Label → Prop) (xs : List Label) : Prop := ∃ path, P path ∧ Reads P path xs

def Onward (P : List Label → Prop) (l : Label) (xs : List Label) : Prop := (xs = [] ∧ P [l]) ∨ (xs ≠ [] ∧ Read (below l P) xs)

theorem onward_iff : Onward P l xs ↔ ∃ path, P (l :: path) ∧ Reads (below l P) path xs := by
  constructor
  · rintro (⟨rfl, hp⟩ | ⟨_, path, hp, hr⟩)
    · exact ⟨[], hp, trivial⟩
    · exact ⟨path, hp.2, hr⟩
  · rintro ⟨path, hp, hr⟩
    cases path with
    | nil =>
      cases xs with
      | nil => exact .inl ⟨rfl, hp⟩
      | cons => exact hr.elim
    | cons m path =>
      cases xs with
      | nil => exact hr.elim
      | cons => exact .inr ⟨by simp, m :: path, ⟨by simp, hp⟩, hr⟩

theorem read_cons (hr : Regular P) (x : Label) (xs : List Label) :
    Read P (x :: xs) ↔ (P [dotWildcard] ∧ ¬(x = [] ∧ xs = []) ∧ ¬ Hidden P x) ∨ (x ≠ [] ∧ x ≠ wildcard ∧ Onward P x xs) ∨
      (¬(x = [] ∧ xs = []) ∧ ¬ Hidden P x ∧ Onward P wildcard xs) := by
  have star : wildcard ≠ dotWildcard := by simp [wildcard, dotWildcard]
  constructor
  · rintro ⟨path, hp, hre⟩
    obtain ⟨l, path, rfl⟩ := List.exists_cons_of_ne_nil (hr.some hp)
    by_cases dot : l = dotWildcard
    · subst dot
      have hl : path = [] := by
        cases path with
        | nil => rfl
        | cons => exact absurd rfl (hr.named hp [] (by simp [dotWildcard]))
      subst hl
      exact .inl ⟨hp, by simpa [Reads] using hre⟩
    · simp only [Reads, if_neg dot] at hre
      split at hre
      next same =>
        subst same
        exact .inr (.inr ⟨hre.1, hre.2.1, onward_iff.mpr ⟨path, hp, hre.2.2⟩⟩)
      next hpl =>
        obtain ⟨rfl, rest⟩ := hre
        exact .inr (.inl ⟨dot, hpl, onward_iff.mpr ⟨path, hp, rest⟩⟩)
  · rintro (⟨hp, hs, seen⟩ | ⟨hn, hpl, ho⟩ | ⟨hs, seen, ho⟩)
    · exact ⟨[dotWildcard], hp, by simpa [Reads] using ⟨not_and.mp hs, seen⟩⟩
    · obtain ⟨path, hp, rest⟩ := onward_iff.mp ho
      refine ⟨x :: path, hp, ?_⟩
      simp only [Reads, if_neg (show x ≠ dotWildcard from hn), if_neg hpl]
      exact ⟨trivial, rest⟩
    · obtain ⟨path, hp, rest⟩ := onward_iff.mp ho
      refine ⟨wildcard :: path, hp, ?_⟩
      exact ⟨hs, seen, rest⟩

theorem onward_iff_tail (hr : Regular P) (hg : GoodLabel l)
    (ih : xs ≠ [] → (Accepts (keysOf (below l P)) (queryKey xs) ↔ Read (below l P) xs)) :
    Onward P l xs ↔ (queryTail xs = [] ∧ keysOf P (keyLabel l)) ∨
      ∃ r, queryTail xs = domainStep :: r ∧ Accepts (residual domainStep (residuals (keyLabel l) (keysOf P))) r := by
  have next : residual domainStep (residuals (keyLabel l) (keysOf P)) = keysOf (below l P) :=
    funext fun w => propext (residual_label hr hg w)
  rw [next, keysOf_label hr hg]
  unfold queryTail Onward
  by_cases hn : xs = []
  · simp [hn]
  · simp [hn, ih hn]

theorem accepts_literal (hr : Regular P) (hla : HostLabel x)
    (ih : xs ≠ [] → (Accepts (keysOf (below x P)) (queryKey xs) ↔ Read (below x P) xs)) (eq : reverseRunes x = c :: a)
    (hns : 42 ∉ c :: a) (hnp : 43 ∉ c :: a) (hno : domainStep ∉ c :: a) :
    Accepts (residual c (keysOf P)) (a ++ queryTail xs) ↔ Onward P x xs := by
  have hg : GoodLabel x := by
    rw [← eq, mem_reverseRunes hla.text (by decide)] at hns hnp
    exact ⟨hla.text, hla.noStep, hnp, fun star => absurd star hns⟩
  have hn : x ≠ [] := by
    rintro rfl
    cases eq
  have key_eq : keyLabel x = c :: a := (if_neg hn).trans eq
  have hl : ∀ b ∈ c :: a, b ≠ 42 ∧ b ≠ 43 ∧ b ≠ domainStep := fun b mem =>
    ⟨fun hs => hns (hs ▸ mem), fun hs => hnp (hs ▸ mem), fun hs => hno (hs ▸ mem)⟩
  obtain ⟨hf₁, hf₂, hf₃⟩ := hl c (by simp)
  have hp := plain_keysOf hr hf₁ hf₂ hf₃
  rw [hp.accepts_label fun b mem => hl b (by simp [mem]), onward_iff_tail hr hg ih, key_eq]
  have hb : residuals a (residual c (keysOf P)) = residuals (c :: a) (keysOf P) := rfl
  have hp' : Plain (residuals (c :: a) (keysOf P)) := hp.residuals fun mem => hno (List.mem_cons_of_mem _ mem)
  have he : residuals (c :: a) (keysOf P) [] ↔ keysOf P (c :: a) := by rw [residuals, List.append_nil]
  rw [hb, ← he]
  unfold queryTail
  split
  · constructor
    · intro ha
      cases ha with
      | leaf hh => exact .inl ⟨rfl, hh⟩
    · rintro (⟨_, hh⟩ | ⟨r, hm, _⟩)
      · exact .leaf hh
      · cases hm
  · rw [hp'.accepts_cons (by decide) (by decide)]
    constructor
    · exact fun ha => .inr ⟨_, rfl, ha⟩
    · rintro (⟨none, _⟩ | ⟨r, hm, ha⟩)
      · cases none
      · cases hm
        exact ha

theorem Plain.not_accepts (hp : Plain M) (hns : domainStep ∉ a)
    (hs : 42 ∈ a ∨ 43 ∈ a) (t : List UInt8) : ¬ Accepts M (a ++ t) := by
  induction a generalizing M with
  | nil => simp at hs
  | cons b _ ih =>
    intro ha
    rw [List.cons_append, accepts_cons_iff] at ha
    have hl : b ≠ domainStep := fun same => hns (by simp [same])
    rcases ha with ⟨plus, _⟩ | ⟨hno, hnp, hr⟩ | ⟨_, star⟩
    · exact hp.not_begins.2 plus
    · refine ih (hp.residual hl) (fun mem => hns (List.mem_cons_of_mem _ mem)) ?_ hr
      simpa [hno.symm, hnp.symm] using hs
    · exact hp.not_begins.1 star.begins

theorem goodLabel_wildcard : GoodLabel wildcard := ⟨⟨['*'], rfl⟩, by decide, by decide, fun _ => rfl⟩

theorem reverseRunes_wildcard : reverseRunes wildcard = [42] := by decide +kernel

theorem accepts_letters (hr : Regular P) (hla : HostLabel x)
    (ih : xs ≠ [] → (Accepts (keysOf (below x P)) (queryKey xs) ↔ Read (below x P) xs)) (eq : reverseRunes x = c :: a) :
    (c ≠ 42 ∧ c ≠ 43 ∧ Accepts (residual c (keysOf P)) (a ++ queryTail xs)) ↔ x ≠ [] ∧ x ≠ wildcard ∧ Onward P x xs := by
  have hno : domainStep ∉ c :: a := by
    rw [← eq, mem_reverseRunes hla.text (by decide)]
    exact hla.noStep
  have hn : x ≠ [] := by
    rintro rfl
    cases eq
  by_cases hs : 42 ∈ c :: a ∨ 43 ∈ c :: a
  · -- no pattern has a literal label with these bytes
    have hb : 42 ∈ x ∨ 43 ∈ x := by
      rwa [← eq, mem_reverseRunes hla.text (by decide), mem_reverseRunes hla.text (by decide)] at hs
    refine ⟨fun ⟨hns, hnp, ha⟩ => ?_, fun ⟨_, hpl, ho⟩ => ?_⟩
    · have hl : c ≠ domainStep := fun same => hno (by simp [same])
      have rest : 42 ∈ a ∨ 43 ∈ a := by simpa [hns.symm, hnp.symm] using hs
      exact absurd ha ((plain_keysOf hr hns hnp hl).not_accepts (fun mem => hno (List.mem_cons_of_mem _ mem)) rest _)
    · obtain ⟨_, hp, _⟩ := onward_iff.mp ho
      have hg := hr.good hp x (by simp)
      exact absurd (hb.resolve_right hg.noPlus) fun star => hpl (hg.star star)
  · obtain ⟨hns, hnp⟩ := not_or.mp hs
    have hpl : x ≠ wildcard := by
      rintro rfl
      rw [reverseRunes_wildcard] at eq
      exact hns (by simp [← eq])
    rw [accepts_literal hr hla ih eq hns hnp hno]
    refine ⟨fun ⟨_, _, ho⟩ => ⟨hn, hpl, ho⟩, fun ⟨_, _, ho⟩ => ⟨?_, ?_, ho⟩⟩
    · rintro rfl
      exact hns (by simp)
    · rintro rfl
      exact hnp (by simp)

theorem accepts_emptyLabel (hr : Regular P)
    (ih : xs ≠ [] → (Accepts (keysOf (below wildcard P)) (queryKey xs) ↔ Read (below wildcard P) xs)) :
    Accepts (keysOf P) (queryTail xs) ↔ Read P ([] :: xs) := by
  have seen : ¬ Hidden P [] := by
    rintro ⟨b, hf, _⟩
    cases hf
  rw [read_cons hr]
  by_cases hn : xs = []
  · subst hn
    simp only [queryTail, and_self, not_true_eq_false, false_and, and_false, ne_eq, false_or, iff_false]
    intro ha
    cases ha with
    | leaf here =>
      obtain ⟨_, hp, eq⟩ := here
      obtain ⟨l, rest, rfl⟩ := List.exists_cons_of_ne_nil (hr.some hp)
      have hl := keyLabel_ne_nil (hr.good hp l (by simp))
      by_cases last : rest = []
      · rw [last, key_single] at eq
        exact hl eq.symm
      · rw [key_cons l last] at eq
        simp at eq
  · have hs : StarAccepts (keysOf P) (queryTail xs) ↔ Onward P wildcard xs := by
      rw [onward_iff_tail hr goodLabel_wildcard ih, StarAccepts, dropWhile_queryTail]
      rfl
    have ht : queryTail xs = domainStep :: queryKey xs := if_neg hn
    have hnl : ¬ Accepts (residual domainStep (keysOf P)) (queryKey xs) := by
      intro ha
      obtain ⟨w, hw⟩ := ha.nonempty
      obtain ⟨l, _, hp, hf⟩ := (begins_keysOf hr domainStep).mp ⟨w, hw⟩
      exact step_not_mem_keyLabel (hr.good hp l (by simp)) (List.mem_of_mem_head? hf)
    have hv : ¬ Hides (keysOf P) domainStep := fun hh => absurd hh.1 (by decide)
    rw [ht] at hs
    rw [ht, accepts_cons_iff, hs, begins_plus hr]
    simp [hn, hnl, hv, seen]

theorem accepts_hostKey (hr : Regular P) (host : ∀ x ∈ xs, HostLabel x) (hs : xs ≠ []) :
    Accepts (keysOf P) (queryKey xs) ↔ Read P xs := by
  induction xs generalizing P with
  | nil => exact absurd rfl hs
  | cons x xs ih =>
    have hl := host x (by simp)
    have hla : ∀ l, xs ≠ [] → (Accepts (keysOf (below l P)) (queryKey xs) ↔ Read (below l P) xs) :=
      fun l => ih (hr.below l) fun y mem => host y (by simp [mem])
    rw [queryKey_cons]
    cases eq : reverseRunes x with
    | nil =>
      have he : x = [] := by
        obtain ⟨_, rfl⟩ := hl.text
        rw [reverseRunes_encode] at eq
        have none := encode_injective (eq.trans encode_nil.symm)
        rw [List.reverse_eq_nil_iff.mp none, encode_nil]
      subst he
      exact accepts_emptyLabel hr (hla wildcard)
    | cons c a =>
      have hns : domainStep ∉ c :: a := by
        rw [← eq, mem_reverseRunes hl.text (by decide)]
        exact hl.noStep
      have hn : x ≠ [] := by
        rintro rfl
        cases eq
      have hh := hides_keysOf hr (x := x) (c := c) (by rw [eq]; rfl)
      have star : StarAccepts (keysOf P) (c :: (a ++ queryTail xs)) ↔ Onward P wildcard xs := by
        rw [onward_iff_tail hr goodLabel_wildcard (hla wildcard), StarAccepts, ← List.cons_append, dropWhile_label hns,
          dropWhile_queryTail]
        rfl
      rw [read_cons hr, List.cons_append, accepts_cons_iff, begins_plus hr, hh, star,
        accepts_letters hr hl (hla x) eq]
      simp [hn]

theorem reads_iff_visible {path : List Label} (hn : ∀ x ∈ xs, x ≠ []) : Reads P path xs ↔ Visible P path xs := by
  induction xs generalizing P path with
  | nil => cases path <;> rfl
  | cons x _ ih =>
    cases path with
    | nil => rfl
    | cons =>
      have hf := hn x (by simp)
      simp only [Reads, Visible, hf, false_and, not_false_eq_true, true_and, ih fun y mem => hn y (by simp [mem])]

theorem Visible.candidate {path : List Label} (hn : ∀ l ∈ path.dropLast, l ≠ [])
    (hv : Visible P path xs) : path ∈ candidates xs := by
  induction path generalizing P xs with
  | nil =>
    cases xs with
    | nil => simp [candidates]
    | cons => exact hv.elim
  | cons _ path ih =>
    cases xs with
    | nil => exact hv.elim
    | cons x xs =>
      have hr : ∀ m ∈ path.dropLast, m ≠ [] := by
        intro m mem
        cases path with
        | nil => cases mem
        | cons => exact hn m (by simp [mem])
      simp only [Visible] at hv
      split at hv
      next dot =>
        subst dot
        cases path with
        | nil => exact (dots_mem_candidates _).mpr (by simp)
        | cons => exact absurd rfl (hn [] (by simp [dotWildcard]))
      next hw =>
        refine (cons_mem_candidates hw path (x :: xs)).mpr ⟨x, xs, rfl, ?_⟩
        split at hv
        next hs => exact ⟨.inl hs, ih hr hv.2⟩
        · exact ⟨.inr hv.1, ih hr hv.2⟩

def Patterns (u : Unicode) (ops : List (Op T)) : List Label → Prop := fun path => ∃ e ∈ inserts ops, path ∈ sets u e.1

theorem regular_patterns (u : Unicode) (ops : List (Op T)) : Regular (Patterns u ops) where
  some := by
    rintro _ ⟨e, _, set⟩
    obtain ⟨l, _, rfl, _⟩ := (stored_of_sets set).first
    simp
  good := fun ⟨_, _, set⟩ => (stored_of_sets set).labels
  named := fun ⟨_, _, set⟩ => (stored_of_sets set).named

theorem hostLabel_of_part (u : Unicode) (host : List UInt8) : ∀ x ∈ (u.lower host).splitOn domainStep, HostLabel x := by
  intro x mem
  refine ⟨?_, not_mem_of_mem_splitOn mem⟩
  rw [u.lower_eq, show domainStep = 46 from rfl, splitOn_encode] at mem
  obtain ⟨cs, _, rfl⟩ := List.mem_map.mp mem
  exact ⟨cs, rfl⟩

theorem newDomainSet_eq_none (none : newDomainSet t = none) : sortedKeys t = [] := by
  unfold newDomainSet at none
  split at none
  next he => exact he
  · cases none

theorem has_accepts (ran : run u {} ops = some t) (domain : List UInt8) :
    ∃ b, (∃ n, ∀ fuel, has u (n + fuel) (newDomainSet t) domain = some b) ∧
      (b = true ↔ Accepts (keysOf (Patterns u ops)) (revLower u domain)) := by
  have hk : language (sortedKeys t) = keysOf (Patterns u ops) := funext fun w => propext (mem_sortedKeys ran w)
  cases hm : newDomainSet t with
  | none =>
    refine ⟨false, ⟨0, fun fuel => rfl⟩, ?_⟩
    have hn : ¬ Accepts (keysOf (Patterns u ops)) (revLower u domain) := by
      intro ha
      obtain ⟨w, hw⟩ := ha.nonempty
      rw [← hk, newDomainSet_eq_none hm] at hw
      cases hw
    simp [hn]
  | some =>
    obtain ⟨_, he⟩ := encodes_newDomainSet (keys_nodup ran) hm
    obtain ⟨b, hr, han⟩ := he.has_iff u domain
    exact ⟨b, hr, by rw [han, hk]⟩

def hostLabels (u : Unicode) (host : List UInt8) : List Label := ((u.lower host).splitOn domainStep).reverse

theorem has_read (ran : run u {} ops = some t) (host : List UInt8) :
    ∃ b, (∃ n, ∀ fuel, has u (n + fuel) (newDomainSet t) host = some b) ∧
      (b = true ↔ Read (Patterns u ops) (hostLabels u host)) := by
  obtain ⟨b, hr, ha⟩ := has_accepts ran host
  refine ⟨b, hr, ?_⟩
  rw [ha, revLower_labels]
  refine accepts_hostKey (regular_patterns u ops) (fun x mem => hostLabel_of_part u host x (List.mem_reverse.mp mem)) ?_
  exact List.reverse_ne_nil_iff.mpr (List.splitOn_ne_nil _ _)

theorem has_newDomainSet (ran : run u {} ops = some t)
    {domain : List UInt8} {parts : List Label} (hv : validAndSplitDomain u domain = some parts) (hn : parts.head? ≠ some []) :
    ∃ b, (∃ n, ∀ fuel, has u (n + fuel) (newDomainSet t) domain = some b) ∧
      (b = true ↔ Found (Patterns u ops) parts.reverse) := by
  have hf := named_of_wellFormed (validAndSplitDomain_wellFormed hv) hn
  obtain ⟨rfl, _⟩ := validAndSplitDomain_eq hv
  obtain ⟨b, hr, ha⟩ := has_read ran domain
  refine ⟨b, hr, ha.trans (exists_congr fun path => and_congr_right fun _ => ?_)⟩
  exact reads_iff_visible hf

theorem search_isSome (ran : run u {} ops = some t)
    {domain : List UInt8} {parts : List Label} (hva : validAndSplitDomain u domain = some parts) (hn : parts.head? ≠ some []) :
    (t.search u domain).isSome = true ↔ ∃ path ∈ candidates parts.reverse, Patterns u ops path := by
  rw [isSome_iff_ne_none, ne_eq, t.search_eq_none, t.search_data hva hn, List.findSome?_eq_none_iff]
  constructor
  · intro some
    by_contra none
    refine some fun path hc => eq_none_iff_forall_ne_some.mpr fun v hv => ?_
    exact none ⟨path, hc, (run_at_isSome ran path).mp ⟨v, hv⟩⟩
  · rintro ⟨path, hc, hp⟩ none
    obtain ⟨v, hv⟩ := (run_at_isSome ran path).mpr hp
    rw [none path hc] at hv
    cases hv

/-- The succinct set and the trie agree exactly when the wildcards that could answer are not all hidden. -/
theorem has_eq_search_iff {u : Unicode} {ops : List (Op T)} {t : DomainTrie T} (ran : run u {} ops = some t)
    {domain : List UInt8} {parts : List Label} (valid : validAndSplitDomain u domain = some parts)
    (named : parts.head? ≠ some []) :
    ∃ b, (∃ n, ∀ fuel, has u (n + fuel) (newDomainSet t) domain = some b) ∧
      (b = true → (t.search u domain).isSome = true) ∧
      (b = (t.search u domain).isSome ↔
        ((∃ e ∈ inserts ops, (coverage u parts e).isSome = true) → Found (Patterns u ops) parts.reverse)) := by
  obtain ⟨b, hr, answer⟩ := has_newDomainSet ran valid named
  have search := search_isSome ran valid named
  have hco : (∃ e ∈ inserts ops, (coverage u parts e).isSome = true) ↔ (t.search u domain).isSome = true := by
    rw [search]
    constructor
    · rintro ⟨e, mem, some⟩
      obtain ⟨ks, eq⟩ := isSome_iff_exists.mp some
      obtain ⟨path, set, cand, _⟩ := (coverage_iff u parts e ks).mp eq
      exact ⟨path, cand, e, mem, set⟩
    · rintro ⟨path, cand, e, mem, set⟩
      refine ⟨e, mem, isSome_iff_exists.mpr ⟨path.map kind, ?_⟩⟩
      exact (coverage_iff u parts e _).mpr ⟨path, set, cand, rfl⟩
  have hs : b = true → (t.search u domain).isSome = true := by
    intro yes
    obtain ⟨path, hp, hv⟩ := answer.mp yes
    exact search.mpr ⟨path, hv.candidate ((regular_patterns u ops).named hp), hp⟩
  refine ⟨b, hr, hs, ?_⟩
  rw [hco, ← answer]
  constructor
  · exact fun same hf => same.trans hf
  · intro hc
    exact Bool.eq_iff_iff.mpr ⟨hs, hc⟩

/-- `*.a.c` matches `B.a.c`, and no label of a pattern ends with its last byte. -/
theorem has_eq_search_sample : ∃ t, run .asciiOnly {} sampleOps = some t ∧
    ∃ n, ∀ fuel, has .asciiOnly (n + fuel) (newDomainSet t) (encode ['B', '.', 'a', '.', 'c']) = some true := by
  have ht : (run .asciiOnly {} sampleOps).isSome = true := by decide +kernel
  obtain ⟨t, ran⟩ := isSome_iff_exists.mp ht
  have hv : validAndSplitDomain .asciiOnly (encode ['B', '.', 'a', '.', 'c']) = some [[98], [97], [99]] := by decide +kernel
  have hfi := (search_isSome ran hv (by decide)).mpr ⟨[[99], [97], wildcard], by decide +kernel, _, List.mem_cons_self, by decide +kernel⟩
  obtain ⟨b, hr, _, ha⟩ := has_eq_search_iff ran hv (by decide)
  refine ⟨t, ran, ?_⟩
  have hvi : ∃ path, Patterns .asciiOnly sampleOps path ∧ Visible (Patterns .asciiOnly sampleOps) path [[99], [97], [98]] := by
    refine ⟨[[99], [97], wildcard], ⟨_, List.mem_cons_self, by decide +kernel⟩, ?_⟩
    have last : (reverseRunes [98]).head? = some 98 := by decide +kernel
    simp only [Visible]
    refine ⟨trivial, trivial, ?_, trivial⟩
    rintro ⟨b, hf, hs, _⟩
    rw [last] at hf
    cases hf
    exact absurd hs (by decide)
  rw [hfi] at ha
  rwa [ha.mpr fun _ => hvi] at hr

def hiddenOps : List (Op Nat) := [.insert (encode ['*', '.', 'c']) 1, .insert (encode ['b', '!', '.', 'c']) 2]

/-- The label `b!` is read before `*`, so the set does not get to the pattern that the trie finds. -/
theorem has_ne_search : ∃ t, run .asciiOnly {} hiddenOps = some t ∧
    has .asciiOnly 100 (newDomainSet t) (encode ['c', '!', '.', 'c']) = some false ∧
    (t.search .asciiOnly (encode ['c', '!', '.', 'c'])).isSome = true := by
  have hc : ((run .asciiOnly {} hiddenOps).map fun t => (has .asciiOnly 100 (newDomainSet t) (encode ['c', '!', '.', 'c']),
      (t.search .asciiOnly (encode ['c', '!', '.', 'c'])).isSome)) = some (some false, true) := by decide +kernel
  obtain ⟨t, ran, ha⟩ := map_eq_some_iff.mp hc
  exact ⟨t, ran, (Prod.mk.inj ha).1, (Prod.mk.inj ha).2⟩

end AsterCore.Trie
