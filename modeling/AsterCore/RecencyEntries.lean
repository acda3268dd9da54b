import Mathlib.Data.List.Nodup

namespace AsterCore.RecencyEntries

open List

variable {K V W : Type}

/-- A new entry at the end of entries that run from the least to the most recently used; one too many for a positive size drops the oldest. -/
def push (size : Int) (l : List (K × V)) (e : K × V) : List (K × V) :=
  if 0 < size ∧ size < ((l ++ [e]).length : Int) then (l ++ [e]).tail else l ++ [e]

structure OneToOne (l : List (K × V)) : Prop where
  keys : (l.map Prod.fst).Nodup
  values : (l.map Prod.snd).Nodup

variable {l : List (K × V)}

theorem keys_append (keys : (l.map Prod.fst).Nodup) {e : K × V} (fresh : e.1 ∉ l.map Prod.fst) :
    ((l ++ [e]).map Prod.fst).Nodup := by
  rw [map_append, nodup_append]
  refine ⟨keys, nodup_singleton _, fun a here b there => ?_⟩
  rintro rfl
  exact fresh (mem_singleton.mp there ▸ here)

theorem push_sublist (size : Int) (l : List (K × V)) (e : K × V) : (push size l e).Sublist (l ++ [e]) := by
  unfold push
  split
  · exact tail_sublist _
  · exact List.Sublist.refl _

theorem mem_push (size : Int) (l : List (K × V)) (e : K × V) : e ∈ push size l e := by
  unfold push
  split
  next full =>
    cases l with
    | nil =>
      simp only [nil_append, length_singleton] at full
      omega
    | cons => simp
  · simp

theorem push_map {K' V' : Type} (f : K × V → K' × V') (size : Int) (l : List (K × V)) (e : K × V) :
    push size (l.map f) (f e) = (push size l e).map f := by
  unfold push
  simp only [length_append, length_map, length_singleton]
  split
  · rw [map_tail, map_append, map_singleton]
  · rw [map_append, map_singleton]

theorem OneToOne.swap (h : OneToOne l) : OneToOne (l.map Prod.swap) := by
  refine ⟨?_, ?_⟩
  · rw [map_map]
    exact h.values
  · rw [map_map]
    exact h.keys

theorem OneToOne.sublist {l' : List (K × V)} (h : OneToOne l) (hp : l'.Sublist l) : OneToOne l' :=
  ⟨h.keys.sublist (hp.map _), h.values.sublist (hp.map _)⟩

theorem OneToOne.append (h : OneToOne l) {k : K} {v : V} (key : k ∉ l.map Prod.fst) (hv : v ∉ l.map Prod.snd) :
    OneToOne (l ++ [(k, v)]) := by
  refine ⟨keys_append h.keys key, ?_⟩
  have hs : ((l.map Prod.swap ++ [(v, k)]).map Prod.fst).Nodup := by
    refine keys_append h.swap.keys ?_
    rw [map_map]
    exact hv
  rw [map_append, map_map] at hs
  rw [map_append]
  exact hs

section

variable [DecidableEq K]

def find (l : List (K × V)) (k : K) : Option V := (l.find? fun e => e.1 = k).map Prod.snd

def without (l : List (K × V)) (k : K) : List (K × V) := l.filter fun e => e.1 ≠ k

def touch (l : List (K × V)) (k : K) : List (K × V) :=
  match find l k with
  | some v => without l k ++ [(k, v)]
  | none => l

theorem find_cons (e : K × V) (l : List (K × V)) (k : K) : find (e :: l) k = if e.1 = k then some e.2 else find l k := by
  unfold find
  by_cases same : e.1 = k
  · simp [same]
  · simp [same]

variable {k : K} {v : V}

variable {l : List (K × V)}

theorem mem_of_find (found : find l k = some v) : (k, v) ∈ l := by
  obtain ⟨e, eq, rfl⟩ := Option.map_eq_some_iff.mp found
  have key := find?_some eq
  simp only [decide_eq_true_eq] at key
  exact key ▸ mem_of_find?_eq_some eq

theorem find_eq_none : find l k = none ↔ k ∉ l.map Prod.fst := by
  rw [find, Option.map_eq_none_iff, find?_eq_none, mem_map]
  constructor
  · rintro none ⟨e, mem, eq⟩
    exact none e mem (decide_eq_true eq)
  · intro none e mem eq
    exact none ⟨e, mem, of_decide_eq_true eq⟩

theorem find_of_mem (hk : (l.map Prod.fst).Nodup) (mem : (k, v) ∈ l) : find l k = some v := by
  induction l with
  | nil => cases mem
  | cons _ _ ih =>
    rw [map_cons, nodup_cons] at hk
    rw [find_cons]
    rcases mem_cons.mp mem with rfl | hl
    · rw [if_pos rfl]
    · rw [if_neg, ih hk.2 hl]
      rintro rfl
      exact hk.1 (mem_map.mpr ⟨_, hl, rfl⟩)

theorem find_without (l : List (K × V)) (k : K) : find (without l k) k = none := by
  rw [find_eq_none]
  intro mem
  obtain ⟨e, there, rfl⟩ := mem_map.mp mem
  have differs := (mem_filter.mp there).2
  simp at differs

theorem keys_without (keys : (l.map Prod.fst).Nodup) (k : K) :
    ((without l k).map Prod.fst).Nodup ∧ k ∉ (without l k).map Prod.fst := by
  exact ⟨keys.sublist (List.Sublist.map _ filter_sublist), find_eq_none.mp (find_without l k)⟩

theorem keys_touch (keys : (l.map Prod.fst).Nodup) (k : K) : ((touch l k).map Prod.fst).Nodup := by
  unfold touch
  split
  next v found => exact keys_append (keys_without keys k).1 (keys_without keys k).2
  · exact keys

theorem without_absent (absent : find l k = none) : without l k = l := by
  refine filter_eq_self.mpr fun e mem => ?_
  have other : e.1 ≠ k := by
    rintro rfl
    exact find_eq_none.mp absent (mem_map_of_mem mem)
  simp [other]

theorem without_touch (l : List (K × V)) (k : K) : without (touch l k) k = without l k := by
  unfold touch
  split
  next v found => simp [without]
  · rfl

theorem keys_push (hk : (l.map Prod.fst).Nodup) {e : K × V} (hf : find l e.1 = none) (size : Int) :
    ((push size l e).map Prod.fst).Nodup :=
  (keys_append hk (find_eq_none.mp hf)).sublist (List.Sublist.map _ (push_sublist size l e))

/-! Entries seen through a map of their values. -/

theorem find_map (f : V → W) (l : List (K × V)) (k : K) : find (l.map (Prod.map id f)) k = (find l k).map f := by
  induction l with
  | nil => rfl
  | cons _ _ ih =>
    rw [map_cons, find_cons, find_cons, ih]
    simp only [Prod.map_fst, id_eq]
    split
    · rfl
    · rfl

theorem without_map (f : V → W) (l : List (K × V)) (k : K) :
    without (l.map (Prod.map id f)) k = (without l k).map (Prod.map id f) := by
  unfold without
  rw [filter_map]
  rfl

theorem touch_map (f : V → W) (l : List (K × V)) (k : K) : touch (l.map (Prod.map id f)) k = (touch l k).map (Prod.map id f) := by
  unfold touch
  rw [find_map]
  cases find l k with
  | none => rfl
  | some => simp [without_map]

theorem oneToOne_without (h : OneToOne l) (k : K) : OneToOne (without l k) := h.sublist filter_sublist

theorem mem_touch {e : K × V} (mem : e ∈ touch l k) : e ∈ l := by
  unfold touch at mem
  split at mem
  next hf =>
    rcases mem_append.mp mem with old | hl
    · exact (mem_filter.mp old).1
    · exact mem_singleton.mp hl ▸ mem_of_find hf
  · exact mem

/-! The same entries with keys and values exchanged. -/

variable [DecidableEq V]

section

variable (h : OneToOne l)

include h

theorem OneToOne.find_swap : find (l.map Prod.swap) v = some k ↔ find l k = some v := by
  constructor
  · intro found
    obtain ⟨⟨_, _⟩, mem, eq⟩ := mem_map.mp (mem_of_find found)
    cases eq
    exact find_of_mem h.keys mem
  · intro found
    exact find_of_mem h.swap.keys (mem_map.mpr ⟨(k, v), mem_of_find found, rfl⟩)

theorem OneToOne.without_swap (found : find l k = some v) : without (l.map Prod.swap) v = (without l k).map Prod.swap := by
  unfold without
  rw [filter_map]
  refine congrArg _ (filter_congr fun e mem => ?_)
  have keyed := find_of_mem h.keys mem
  have valued := h.find_swap.mpr keyed
  have same : e.2 = v ↔ e.1 = k := by
    constructor
    · intro eq
      have there := h.find_swap.mpr found
      rw [← eq, valued] at there
      exact Option.some.inj there
    · intro eq
      rw [← eq, keyed] at found
      exact Option.some.inj found
  simp [same]

theorem OneToOne.touch_swap (hf : find l k = some v) : touch (l.map Prod.swap) v = (touch l k).map Prod.swap := by
  unfold touch
  rw [h.find_swap.mpr hf, hf]
  simp only [h.without_swap hf, map_append, map_singleton, Prod.swap_prod_mk]

theorem oneToOne_push (key : find l k = none)
    (value : find (l.map Prod.swap) v = none) (size : Int) : OneToOne (push size l (k, v)) := by
  rw [find_eq_none] at key value
  rw [map_map] at value
  exact (h.append key value).sublist (push_sublist size l (k, v))

theorem oneToOne_touch (k : K) : OneToOne (touch l k) := by
  refine ⟨keys_touch h.keys k, ?_⟩
  cases found : find l k with
  | none =>
    have same : touch l k = l := by rw [touch, found]
    rw [same]
    exact h.values
  | some v =>
    have swapped := keys_touch h.swap.keys v
    rw [h.touch_swap found, map_map] at swapped
    exact swapped

end

end

end AsterCore.RecencyEntries
