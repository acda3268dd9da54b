import Mathlib.Data.List.Basic
import Mathlib.Data.List.Nodup
import Mathlib.Logic.Function.Basic

namespace AsterCore

open List Option Function

/-- A doubly linked list threaded through nodes of type `α`, with its two ends.
A pointer that is nil is `none`. -/
structure Links (α : Type) where
  older : α → Option α := fun _ => none
  newer : α → Option α := fun _ => none
  cold : Option α := none
  hot : Option α := none

namespace Links

variable {α : Type}

def Segment (s : Links α) : Option α → List α → Option α → Prop
  | _, [], _ => True
  | before, r :: l, after =>
    s.older r = before ∧ s.newer r = l.head?.or after ∧ s.Segment (some r) l after

structure Linked (s : Links α) (l : List α) : Prop where
  nodup : l.Nodup
  segment : s.Segment none l none
  cold_eq : s.cold = l.head?
  hot_eq : s.hot = l.getLast?

structure Detached (s : Links α) (r : α) : Prop where
  older_eq : s.older r = none
  newer_eq : s.newer r = none
  cold_ne : s.cold ≠ some r
  hot_ne : s.hot ≠ some r

theorem linked_empty : (({} : Links α)).Linked [] :=
  ⟨nodup_nil, trivial, rfl, rfl⟩

variable {l : List α} {before after : Option α} {t : Links α}

variable {s : Links α}

theorem segment_append {k : List α} :
    s.Segment before (l ++ k) after ↔
      s.Segment before l (k.head?.or after) ∧ s.Segment (l.getLast?.or before) k after := by
  induction l generalizing before with
  | nil => simp [Segment]
  | cons r l ih =>
    have hl : (l.getLast?.or (some r)) = ((r :: l).getLast?.or before) := by
      cases l with
      | nil => rfl
      | cons q l =>
        rw [getLast?_cons_cons]
        obtain ⟨x, hx⟩ : ∃ x, (q :: l).getLast? = some x := ⟨_, getLast?_eq_some_getLast (by simp)⟩
        rfl
    have hf : (l ++ k).head?.or after = l.head?.or (k.head?.or after) := by
      rw [head?_append, Option.or_assoc]
    simp only [cons_append, Segment, hf, ih, hl, and_assoc]

theorem Segment.congr (seg : s.Segment before l after)
    (ho : ∀ r ∈ l, t.older r = s.older r) (hne : ∀ r ∈ l, t.newer r = s.newer r) : t.Segment before l after := by
  induction l generalizing before with
  | nil => trivial
  | cons r _ ih =>
    obtain ⟨hb, hn, hr⟩ := seg
    refine ⟨(ho r mem_cons_self).trans hb, (hne r mem_cons_self).trans hn, ?_⟩
    exact ih hr (fun q hq => ho q (mem_cons_of_mem r hq)) (fun q hq => hne q (mem_cons_of_mem r hq))

variable [DecidableEq α]

theorem Segment.setAfter {next : Option α} (hno : l.Nodup)
    (seg : s.Segment before l after) (ho : ∀ r ∈ l, t.older r = s.older r)
    (hne : ∀ r ∈ l, t.newer r = if l.getLast? = some r then next else s.newer r) : t.Segment before l next := by
  induction l generalizing before with
  | nil => trivial
  | cons r l ih =>
    obtain ⟨hb, hn, hr⟩ := seg
    obtain ⟨hf, hnr⟩ := nodup_cons.mp hno
    have hh := hne r mem_cons_self
    refine ⟨(ho r mem_cons_self).trans hb, ?_, ?_⟩
    · cases l with
      | nil => simpa using hh
      | cons q l =>
        have hot : (r :: q :: l).getLast? ≠ some r := by
          intro hl
          exact hf (mem_of_getLast? hl)
        rw [if_neg hot] at hh
        rw [hh, hn]
        rfl
    · refine ih hnr hr (fun q hq => ho q (mem_cons_of_mem r hq)) ?_
      intro q hq
      have ht := hne q (mem_cons_of_mem r hq)
      cases l with
      | nil => cases hq
      | cons => rwa [getLast?_cons_cons] at ht

theorem Segment.setBefore {last : Option α} (hno : l.Nodup)
    (seg : s.Segment before l after) (hne : ∀ r ∈ l, t.newer r = s.newer r)
    (ho : ∀ r ∈ l, t.older r = if l.head? = some r then last else s.older r) : t.Segment last l after := by
  cases l with
  | nil => trivial
  | cons r l =>
    obtain ⟨_, hn, hr⟩ := seg
    obtain ⟨hf, _⟩ := nodup_cons.mp hno
    refine ⟨by simpa using ho r mem_cons_self, (hne r mem_cons_self).trans hn, ?_⟩
    refine hr.congr ?_ (fun q hq => hne q (mem_cons_of_mem r hq))
    intro q hq
    have ht := ho q (mem_cons_of_mem r hq)
    have hot : (r :: l).head? ≠ some q := by
      rintro ⟨rfl⟩
      exact hf hq
    rwa [if_neg hot] at ht

def clear (s : Links α) (r : α) : Links α :=
  { s with older := Function.update s.older r none, newer := Function.update s.newer r none }

def bypassOlder (s : Links α) (r : α) : Links α :=
  match s.older r with
  | some o => { s with newer := Function.update s.newer o (s.newer r) }
  | none => if s.cold = some r then { s with cold := s.newer r } else s

def bypassNewer (s : Links α) (r : α) : Links α :=
  match s.newer r with
  | some n => { s with older := Function.update s.older n (s.older r) }
  | none => if s.hot = some r then { s with hot := s.older r } else s

def unlink (s : Links α) (r : α) : Links α :=
  ((s.bypassOlder r).bypassNewer r).clear r

def push (s : Links α) (r : α) : Links α :=
  let s₁ : Links α := { s with
    older := Function.update s.older r s.hot
    newer := Function.update s.newer r none }
  let s₂ : Links α := match s₁.hot with
    | some h => { s₁ with newer := Function.update s₁.newer h (some r) }
    | none => { s₁ with cold := some r }
  { s₂ with hot := some r }

def touch (s : Links α) (r : α) : Links α :=
  if s.hot = some r then s else (s.unlink r).push r

theorem Linked.clear {r : α} (hl : s.Linked l) (hf : r ∉ l) : (s.clear r).Linked l ∧ (s.clear r).Detached r := by
  obtain ⟨hn, hs, hc, hot⟩ := hl
  have ha : ∀ q ∈ l, q ≠ r := fun q hq h => hf (h ▸ hq)
  refine ⟨⟨hn, hs.congr ?_ ?_, hc, hot⟩, ?_, ?_, ?_, ?_⟩
  · exact fun q hq => update_of_ne (ha q hq) _ _
  · exact fun q hq => update_of_ne (ha q hq) _ _
  · exact update_self _ _ _
  · exact update_self _ _ _
  · intro h
    exact hf (mem_of_head? (hc.symm.trans h))
  · intro h
    exact hf (mem_of_getLast? (hot.symm.trans h))

section Bypass

variable (s : Links α) (r : α)

@[simp] theorem bypassOlder_older : (s.bypassOlder r).older = s.older := by
  unfold bypassOlder
  split
  · rfl
  · split <;> rfl

@[simp] theorem bypassOlder_hot : (s.bypassOlder r).hot = s.hot := by
  unfold bypassOlder
  split
  · rfl
  · split <;> rfl

theorem bypassOlder_newer (q : α) : (s.bypassOlder r).newer q = if s.older r = some q then s.newer r else s.newer q := by
  unfold bypassOlder
  split
  next o h => simp only [h, some.injEq, update_apply, eq_comm (a := o)]
  next h =>
    simp only [h, reduceCtorEq]
    split <;> rfl

theorem bypassOlder_cold : (s.bypassOlder r).cold = if s.older r = none ∧ s.cold = some r then s.newer r else s.cold := by
  unfold bypassOlder
  split
  next h => simp [h]
  next h =>
    simp only [h, true_and]
    split <;> rfl

@[simp] theorem bypassNewer_newer : (s.bypassNewer r).newer = s.newer := by
  unfold bypassNewer
  split
  · rfl
  · split <;> rfl

@[simp] theorem bypassNewer_cold : (s.bypassNewer r).cold = s.cold := by
  unfold bypassNewer
  split
  · rfl
  · split <;> rfl

theorem bypassNewer_older (q : α) : (s.bypassNewer r).older q = if s.newer r = some q then s.older r else s.older q := by
  unfold bypassNewer
  split
  next n h => simp only [h, some.injEq, update_apply, eq_comm (a := n)]
  next h =>
    simp only [h, reduceCtorEq]
    split <;> rfl

theorem bypassNewer_hot : (s.bypassNewer r).hot = if s.newer r = none ∧ s.hot = some r then s.older r else s.hot := by
  unfold bypassNewer
  split
  next h => simp [h]
  next h =>
    simp only [h, true_and]
    split <;> rfl

end Bypass

section Unlink

variable {s : Links α} {r : α}

theorem unlink_newer (q : α) : (s.unlink r).newer q =
    if q = r then none else if s.older r = some q then s.newer r else s.newer q := by
  simp only [unlink, clear, bypassNewer_newer, update_apply, bypassOlder_newer]

theorem unlink_older (hs : s.older r ≠ some r) (q : α) : (s.unlink r).older q =
    if q = r then none else if s.newer r = some q then s.older r else s.older q := by
  simp only [unlink, clear, update_apply, bypassNewer_older, bypassOlder_newer, hs, if_false, bypassOlder_older]

theorem unlink_cold : (s.unlink r).cold = if s.older r = none ∧ s.cold = some r then s.newer r else s.cold := by
  simp only [unlink, clear, bypassNewer_cold, bypassOlder_cold]

theorem unlink_hot (hs : s.older r ≠ some r) :
    (s.unlink r).hot = if s.newer r = none ∧ s.hot = some r then s.older r else s.hot := by
  simp only [unlink, clear, bypassNewer_hot, bypassOlder_newer, hs, if_false, bypassOlder_hot, bypassOlder_older]

theorem unlink_of_detached (hf : s.Detached r) : s.unlink r = s := by
  have hs : s.older r ≠ some r := by simp [hf.older_eq]
  have ho : (s.unlink r).older = s.older := by
    funext q
    rw [unlink_older hs, hf.newer_eq]
    split
    next h => rw [h, hf.older_eq]
    · rfl
  have hn : (s.unlink r).newer = s.newer := by
    funext q
    rw [unlink_newer, hf.older_eq]
    split
    next h => rw [h, hf.newer_eq]
    · rfl
  have hc : (s.unlink r).cold = s.cold := by simp [unlink_cold, hf.cold_ne]
  have hot : (s.unlink r).hot = s.hot := by simp [unlink_hot hs, hf.hot_ne]
  calc s.unlink r = ⟨(s.unlink r).older, (s.unlink r).newer, (s.unlink r).cold, (s.unlink r).hot⟩ := rfl
    _ = s := by rw [ho, hn, hc, hot]

theorem Linked.unlink {l : List α} (linked : s.Linked l) (mem : r ∈ l) :
    (s.unlink r).Linked (l.erase r) ∧ (s.unlink r).Detached r := by
  obtain ⟨a, b, rfl⟩ := append_of_mem mem
  obtain ⟨nodup, segment, cold, hot⟩ := linked
  obtain ⟨left, olderEq, newerEq, right⟩ := segment_append.mp segment
  obtain ⟨nodupA, nodupRB, apart⟩ := nodup_append.mp nodup
  obtain ⟨freshB, nodupB⟩ := nodup_cons.mp nodupRB
  have freshA : r ∉ a := fun h => apart r h r mem_cons_self rfl
  rw [or_none] at olderEq newerEq
  have erased : (a ++ r :: b).erase r = a ++ b := by
    rw [erase_append_right _ freshA, erase_cons_head]
  have self : s.older r ≠ some r := by
    rw [olderEq]
    exact fun h => freshA (mem_of_getLast? h)
  have away : ∀ q ∈ a, q ≠ r ∧ s.newer r ≠ some q := by
    intro q hq
    refine ⟨fun h => freshA (h ▸ hq), ?_⟩
    rw [newerEq]
    exact fun h => apart q hq q (mem_cons_of_mem r (mem_of_head? h)) rfl
  have beyond : ∀ q ∈ b, q ≠ r ∧ s.older r ≠ some q := by
    intro q hq
    refine ⟨fun h => freshB (h ▸ hq), ?_⟩
    rw [olderEq]
    exact fun h => apart q (mem_of_getLast? h) q (mem_cons_of_mem r hq) rfl
  have segA : (s.unlink r).Segment none a b.head? := by
    refine left.setAfter nodupA ?_ ?_
    · intro q hq
      rw [unlink_older self, if_neg (away q hq).1, if_neg (away q hq).2]
    · intro q hq
      rw [unlink_newer, if_neg (away q hq).1, olderEq, newerEq]
  have segB : (s.unlink r).Segment a.getLast? b none := by
    refine right.setBefore nodupB ?_ ?_
    · intro q hq
      rw [unlink_newer, if_neg (beyond q hq).1, if_neg (beyond q hq).2]
    · intro q hq
      rw [unlink_older self, if_neg (beyond q hq).1, olderEq, newerEq]
  have coldEq : (s.unlink r).cold = (a ++ b).head? := by
    rw [unlink_cold, olderEq, newerEq, cold]
    cases a with
    | nil | cons p a => simp
  have hotEq : (s.unlink r).hot = (a ++ b).getLast? := by
    rw [unlink_hot self, olderEq, newerEq, hot]
    cases b with
    | nil => simp
    | cons => simp [getLast?_append]
  have nodupAB : (a ++ b).Nodup := nodup.sublist ((sublist_cons_self r b).append_left a)
  have segAB : (s.unlink r).Segment none (a ++ b) none := by
    rw [segment_append, or_none, or_none]
    exact ⟨segA, segB⟩
  have gone : r ∉ a ++ b := fun h => (mem_append.mp h).elim freshA freshB
  rw [erased]
  refine ⟨⟨nodupAB, segAB, coldEq, hotEq⟩, ?_, ?_, ?_, ?_⟩
  · rw [unlink_older self, if_pos rfl]
  · rw [unlink_newer, if_pos rfl]
  · rw [coldEq]
    exact fun h => gone (mem_of_head? h)
  · rw [hotEq]
    exact fun h => gone (mem_of_getLast? h)

end Unlink

section Push

variable {s : Links α} {r : α}

theorem push_older (q : α) : (s.push r).older q = if q = r then s.hot else s.older q := by
  unfold push
  cases s.hot <;> simp only [update_apply]

theorem push_newer (q : α) : (s.push r).newer q =
    if s.hot = some q then some r else if q = r then none else s.newer q := by
  unfold push
  cases s.hot with
  | none => simp only [update_apply, reduceCtorEq, if_false]
  | some h => simp only [update_apply, some.injEq, eq_comm (a := h)]

theorem push_cold : (s.push r).cold = if s.hot = none then some r else s.cold := by
  unfold push
  cases s.hot <;> rfl

theorem push_hot : (s.push r).hot = some r := rfl

variable {l : List α}

theorem Linked.push (hl : s.Linked l) (hf : r ∉ l) : (s.push r).Linked (l ++ [r]) := by
  obtain ⟨hn, hs, hc, hot⟩ := hl
  have ha : ∀ q ∈ l, q ≠ r := fun q hq h => hf (h ▸ hq)
  have hfr : (s.push r).Segment none l (some r) := by
    refine hs.setAfter hn ?_ ?_
    · intro q hq
      rw [push_older, if_neg (ha q hq)]
    · intro q hq
      rw [push_newer, if_neg (ha q hq), hot]
  have hne : (s.push r).newer r = none := by
    rw [push_newer, if_pos rfl, if_neg]
    rw [hot]
    exact fun h => hf (mem_of_getLast? h)
  refine ⟨?_, ?_, ?_, ?_⟩
  · rw [nodup_append]
    refine ⟨hn, nodup_singleton r, ?_⟩
    intro q hq p hp
    rw [mem_singleton.mp hp]
    exact ha q hq
  · rw [segment_append, or_none, or_none]
    refine ⟨hfr, ?_, hne, trivial⟩
    rw [push_older, if_pos rfl, hot]
  · rw [push_cold, hot, hc]
    cases l <;> simp
  · rw [push_hot, getLast?_concat]

theorem Linked.touch (hl : s.Linked l) (mem : r ∈ l) : ∃ k, (s.touch r).Linked k ∧ ∀ q, q ∈ k ↔ q ∈ l := by
  unfold Links.touch
  split
  · exact ⟨l, hl, fun _ => Iff.rfl⟩
  · have hf : r ∉ l.erase r := hl.nodup.not_mem_erase
    refine ⟨l.erase r ++ [r], (hl.unlink mem).1.push hf, ?_⟩
    intro q
    rw [mem_append, mem_singleton, hl.nodup.mem_erase_iff]
    constructor
    · rintro (h | rfl)
      · exact h.2
      · exact mem
    · intro hq
      by_cases hs : q = r
      · exact .inr hs
      · exact .inl ⟨hs, hq⟩

theorem Linked.touchNew (hl : s.Linked l) (free : s.Detached r) (hf : r ∉ l) : (s.touch r).Linked (l ++ [r]) := by
  unfold Links.touch
  rw [if_neg free.hot_ne, unlink_of_detached free]
  exact hl.push hf

end Push

end Links

end AsterCore
