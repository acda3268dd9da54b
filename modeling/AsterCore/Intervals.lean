import Mathlib.Order.MinMax
import Mathlib.Data.List.Basic

namespace AsterCore.Intervals

open List

section Order

variable {α : Type} [LinearOrder α]

def Mem (x : α) (is : List (α × α)) : Prop := ∃ i ∈ is, i.1 ≤ x ∧ x ≤ i.2

def Separated (is : List (α × α)) : Prop := is.Pairwise fun i j => i.2 < j.1

/-- Adds an interval to separated ones; those it meets become one with it. -/
def insert (r : α × α) : List (α × α) → List (α × α)
  | [] => [r]
  | s :: rest =>
    if r.2 < s.1 then r :: s :: rest
    else if s.2 < r.1 then s :: insert r rest
    else insert (min r.1 s.1, max r.2 s.2) rest

def normalize (is : List (α × α)) : List (α × α) := is.foldr insert []

theorem mem_cons (x : α) (i : α × α) (is : List (α × α)) : Mem x (i :: is) ↔ (i.1 ≤ x ∧ x ≤ i.2) ∨ Mem x is := by
  simp [Mem]

variable {r : α × α} {is : List (α × α)}

theorem forall_insert {p : α × α → Prop} (hh : ∀ i j, p i → p j → ¬ i.2 < j.1 → ¬ j.2 < i.1 → p (min i.1 j.1, max i.2 j.2))
    (new : p r) (all : ∀ i ∈ is, p i) : ∀ i ∈ insert r is, p i := by
  induction is generalizing r with
  | nil =>
    intro i mem
    rw [mem_singleton.mp mem]
    exact new
  | cons s rest ih =>
    have hf := all s (by simp)
    have hl : ∀ i ∈ rest, p i := fun i mem => all i (by simp [mem])
    unfold insert
    split
    · intro i mem
      rcases List.mem_cons.mp mem with rfl | ht
      · exact new
      · exact all i ht
    next ha =>
      split
      · intro i mem
        rcases List.mem_cons.mp mem with rfl | ht
        · exact hf
        · exact ih new hl i ht
      next ha' => exact ih (hh r s new hf ha ha') hl

theorem mem_insert (hf : r.1 ≤ r.2) (all : ∀ i ∈ is, i.1 ≤ i.2) (x : α) :
    Mem x (insert r is) ↔ (r.1 ≤ x ∧ x ≤ r.2) ∨ Mem x is := by
  induction is generalizing r with
  | nil => simp [insert, Mem]
  | cons s rest ih =>
    have hl : ∀ i ∈ rest, i.1 ≤ i.2 := fun i mem => all i (by simp [mem])
    unfold insert
    split
    · rw [mem_cons]
    next hap =>
      split
      · rw [mem_cons, mem_cons, ih hf hl, or_left_comm]
      next ha' =>
        rw [ih (by simp only; exact (min_le_left _ _).trans (hf.trans (le_max_left _ _))) hl, mem_cons, ← or_assoc]
        refine or_congr_left ?_
        simp only [min_le_iff, le_max_iff]
        constructor
        · rintro ⟨low | low, hh | hh⟩
          · exact .inl ⟨low, hh⟩
          · rcases le_total s.1 x with ha | hb
            · exact .inr ⟨ha, hh⟩
            · exact .inl ⟨low, hb.trans (not_lt.mp hap)⟩
          · rcases le_total r.1 x with ha | hb
            · exact .inl ⟨ha, hh⟩
            · exact .inr ⟨low, hb.trans (not_lt.mp ha')⟩
          · exact .inr ⟨low, hh⟩
        · rintro (⟨low, hh⟩ | ⟨low, hh⟩)
          · exact ⟨.inl low, .inl hh⟩
          · exact ⟨.inr low, .inr hh⟩

theorem separated_insert (hf : r.1 ≤ r.2) (all : ∀ i ∈ is, i.1 ≤ i.2) (hs : Separated is) : Separated (insert r is) := by
  induction is generalizing r with
  | nil => exact pairwise_singleton _ _
  | cons s rest ih =>
    obtain ⟨ha_rest, hr_separated⟩ := pairwise_cons.mp hs
    have hl : ∀ i ∈ rest, i.1 ≤ i.2 := fun i mem => all i (by simp [mem])
    have hfi := all s (by simp)
    unfold insert
    split
    next hb =>
      refine pairwise_cons.mpr ⟨fun j mem => ?_, hs⟩
      rcases List.mem_cons.mp mem with rfl | ht
      · exact hb
      · exact hb.trans_le (hfi.trans (ha_rest j ht).le)
    · split
      next ha =>
        refine pairwise_cons.mpr ⟨?_, ih hf hl hr_separated⟩
        refine forall_insert (p := fun j => s.2 < j.1) (fun i j left hr _ _ => ?_) ha ha_rest
        exact lt_min left hr
      · exact ih (by simp only; exact (min_le_left _ _).trans (hf.trans (le_max_left _ _))) hl hr_separated

theorem forall_normalize {p : α × α → Prop} (hh : ∀ i j, p i → p j → ¬ i.2 < j.1 → ¬ j.2 < i.1 → p (min i.1 j.1, max i.2 j.2))
    (all : ∀ i ∈ is, p i) : ∀ i ∈ normalize is, p i := by
  induction is with
  | nil =>
    intro i mem
    cases mem
  | cons i _ ih => exact forall_insert hh (all i (by simp)) (ih fun j mem => all j (by simp [mem]))

theorem normalize_spec (all : ∀ i ∈ is, i.1 ≤ i.2) : Separated (normalize is) ∧ ∀ x, Mem x (normalize is) ↔ Mem x is := by
  have hf : ∀ {js : List (α × α)}, (∀ i ∈ js, i.1 ≤ i.2) → ∀ i ∈ normalize js, i.1 ≤ i.2 :=
    fun h => forall_normalize (p := fun i => i.1 ≤ i.2)
      (fun i j left _ _ _ => (min_le_left _ _).trans (left.trans (le_max_left _ _))) h
  induction is with
  | nil => exact ⟨List.Pairwise.nil, fun x => Iff.rfl⟩
  | cons i is ih =>
    have hl : ∀ j ∈ is, j.1 ≤ j.2 := fun j mem => all j (by simp [mem])
    obtain ⟨hs, hc⟩ := ih hl
    refine ⟨separated_insert (all i (by simp)) (hf hl) hs, fun x => ?_⟩
    show Mem x (insert i (normalize is)) ↔ _
    rw [mem_insert (all i (by simp)) (hf hl), hc, mem_cons]

end Order

/-- The loop of a binary search for the first place where the test holds. Nothing stands for an index out
of range. -/
def search (after : Nat → Option Bool) : Nat → Nat → Nat → Option Nat
  | 0, i, j => if i < j then none else some i
  | n + 1, i, j =>
    if i < j then (after ((i + j) / 2)).bind fun a => if a then search after n i ((i + j) / 2) else search after n ((i + j) / 2 + 1) j
    else some i

theorem search_spec {after : Nat → Option Bool} {p : Nat → Bool} {len : Nat} (hr : ∀ k, k < len → after k = some (p k))
    (hm : ∀ k l, k ≤ l → l < len → p k = true → p l = true) (n : Nat) {i j : Nat} (fuel : j - i ≤ n) (order : i ≤ j)
    (hi : j ≤ len) (hb : ∀ k, k < i → p k = false) (hbe : ∀ k, j ≤ k → k < len → p k = true) :
    ∃ m, search after n i j = some m ∧ m ≤ len ∧ (∀ k, k < m → p k = false) ∧ ∀ k, m ≤ k → k < len → p k = true := by
  induction n generalizing i j with
  | zero =>
    have hs : i = j := by omega
    subst hs
    exact ⟨i, if_neg (Nat.lt_irrefl i), hi, hb, hbe⟩
  | succ _ ih =>
    unfold search
    split
    next less =>
      rw [hr _ (by omega)]
      cases ht : p ((i + j) / 2) with
      | true =>
        exact ih (by omega) (by omega) (by omega) hb fun k ha hbl => hm _ k ha hbl ht
      | false =>
        refine ih (by omega) (by omega) hi (fun k less' => ?_) hbe
        by_contra one
        have := hm k ((i + j) / 2) (by omega) (by omega) (by simpa using one)
        rw [ht] at this
        cases this
    next done =>
      have hs : i = j := by omega
      subst hs
      exact ⟨i, rfl, hi, hb, hbe⟩

/-- Membership in separated intervals by the last one that does not start after the element. -/
def contains {β : Type} (starts stops : List β) (greater atMost : β → Bool) : Option Bool :=
  (search (fun h => (starts[h]?).map greater) starts.length 0 starts.length).bind fun i =>
    if i = 0 then some false else (stops[i - 1]?).map atMost

theorem contains_spec {β : Type} {starts stops : List β} {greater atMost : β → Bool} {key : β → Nat} {x : Nat}
    (hg_iff : ∀ b, greater b = true ↔ x < key b) (ham_iff : ∀ b, atMost b = true ↔ x ≤ key b)
    (hl : starts.length = stops.length) (hse : Separated ((starts.zip stops).map fun i => (key i.1, key i.2)))
    (hf : ∀ i ∈ starts.zip stops, key i.1 ≤ key i.2) :
    ∃ b, contains starts stops greater atMost = some b ∧
      (b = true ↔ Mem x ((starts.zip stops).map fun i => (key i.1, key i.2))) := by
  have hi : ∀ k, k < starts.length → ∃ a b, starts[k]? = some a ∧ stops[k]? = some b ∧ key a ≤ key b := by
    intro k less
    have hfi := getElem?_eq_getElem less
    have hs := getElem?_eq_getElem (hl ▸ less)
    refine ⟨_, _, hfi, hs, hf (_, _) (mem_of_getElem? (i := k) ?_)⟩
    exact getElem?_zip_eq_some.mpr ⟨hfi, hs⟩
  have ha : ∀ {k l : Nat} {b c : β}, k < l → stops[k]? = some b → starts[l]? = some c → key b < key c := by
    intro k l b c less here hth
    have hbo := (List.getElem?_eq_some_iff.mp hth).1
    obtain ⟨a, _, hfi, _, _⟩ := hi k (by omega)
    obtain ⟨_, d, _, last, _⟩ := hi l hbo
    have one : (starts.zip stops)[k]? = some (a, b) := getElem?_zip_eq_some.mpr ⟨hfi, here⟩
    have two : (starts.zip stops)[l]? = some (c, d) := getElem?_zip_eq_some.mpr ⟨hth, last⟩
    have ho := pairwise_iff_getElem.mp (pairwise_map.mp hse)
    obtain ⟨hb₁, eq₁⟩ := List.getElem?_eq_some_iff.mp one
    obtain ⟨hb₂, eq₂⟩ := List.getElem?_eq_some_iff.mp two
    have := ho k l hb₁ hb₂ less
    rwa [eq₁, eq₂] at this
  have hr : ∀ k, k < starts.length → (starts[k]?).map greater = some (((starts[k]?).map greater).getD true) := by
    intro k less
    obtain ⟨a, _, hfi, _⟩ := hi k less
    rw [hfi]
    rfl
  have mono : ∀ k l, k ≤ l → l < starts.length → ((starts[k]?).map greater).getD true = true →
      ((starts[l]?).map greater).getD true = true := by
    intro k l hor less test
    rcases Nat.lt_or_eq_of_le hor with hm | rfl
    · obtain ⟨a, b, hfi, hs, _⟩ := hi k (by omega)
      obtain ⟨c, _, ht, _⟩ := hi l less
      have := ha hm hs ht
      rw [hfi, Option.map_some, Option.getD_some, hg_iff] at test
      rw [ht, Option.map_some, Option.getD_some, hg_iff]
      omega
    · exact test
  obtain ⟨m, hfo, _, hb, hbe⟩ := search_spec hr mono starts.length (by omega) (Nat.zero_le _) le_rfl
    (fun k less => by omega) (fun k above hbl => by omega)
  rw [contains, hfo, Option.bind_some]
  -- an interval with the element is the last one that starts before it
  have last : Mem x ((starts.zip stops).map fun i => (key i.1, key i.2)) ↔
      ∃ b, m ≠ 0 ∧ stops[m - 1]? = some b ∧ x ≤ key b := by
    constructor
    · rintro ⟨i, mem, _, hh⟩
      obtain ⟨⟨a, b⟩, hth, rfl⟩ := mem_map.mp mem
      obtain ⟨k, at_k⟩ := mem_iff_getElem?.mp hth
      obtain ⟨hfi, hs⟩ := getElem?_zip_eq_some.mp at_k
      have hbo := (List.getElem?_eq_some_iff.mp hfi).1
      have hbl : k < m := by
        by_contra beyond
        have test := hbe k (by omega) hbo
        rw [hfi, Option.map_some, Option.getD_some, hg_iff] at test
        omega
      have same : k = m - 1 := by
        by_contra other
        obtain ⟨c, _, ht, _⟩ := hi (m - 1) (by omega)
        have := ha (show k < m - 1 by omega) hs ht
        have test := hb (m - 1) (by omega)
        rw [ht, Option.map_some, Option.getD_some] at test
        have := (hg_iff c).not.mp (by rw [test]; simp)
        omega
      exact ⟨b, by omega, same ▸ hs, hh⟩
    · rintro ⟨b, _, hs, hh⟩
      obtain ⟨a, _, hfi, hs', _⟩ := hi (m - 1) (by omega)
      rw [hs] at hs'
      cases hs'
      refine ⟨(key a, key b), mem_map.mpr ⟨(a, b), ?_, rfl⟩, ?_, hh⟩
      · exact mem_of_getElem? (i := m - 1) (getElem?_zip_eq_some.mpr ⟨hfi, hs⟩)
      · have test := hb (m - 1) (by omega)
        rw [hfi, Option.map_some, Option.getD_some] at test
        have := (hg_iff a).not.mp (by rw [test]; simp)
        omega
  by_cases hn : m = 0
  · refine ⟨false, if_pos hn, ?_⟩
    rw [last]
    simp [hn]
  · obtain ⟨_, b, _, hs, _⟩ := hi (m - 1) (by omega)
    refine ⟨atMost b, by rw [if_neg hn, hs]; rfl, ?_⟩
    rw [last, ham_iff]
    constructor
    · exact fun hh => ⟨b, hn, hs, hh⟩
    · rintro ⟨_, _, hs', hh⟩
      rw [hs] at hs'
      cases hs'
      exact hh

end AsterCore.Intervals
