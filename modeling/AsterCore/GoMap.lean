import Mathlib.Data.List.AList
import Mathlib.Algebra.BigOperators.Group.List.Basic
import Mathlib.Algebra.Order.BigOperators.Group.List
import Mathlib.Tactic.Abel

namespace AsterCore

open List Option

/-- A map with at most one value a key. A range loop visits the entries in the
order of the underlying list. -/
abbrev GoMap (K V : Type) := AList (fun _ : K => V)

namespace GoMap

variable {K V M : Type}

/-- The loop `for k, v := range m { if p k v { delete(m, k) } }`. -/
def deleteWhere [DecidableEq K] (p : K → V → Bool) (m : GoMap K V) : GoMap K V :=
  m.foldl (fun kept k v => if p k v then kept.erase k else kept) m

/-- The loop `for k, v := range m { out[k] = f(k, v) }` into a new map. -/
def collect {W : Type} [DecidableEq K] (f : K → V → W) (m : GoMap K V) : GoMap K W :=
  m.foldl (fun out k v => out.insert k (f k v)) ∅

/-- The loop `for k, v := range m` that changes the values in place. -/
def mapValues {W : Type} (f : K → V → W) (m : GoMap K V) : GoMap K W where
  entries := m.entries.map fun e => ⟨e.1, f e.1 e.2⟩
  nodupKeys := by
    rw [List.NodupKeys, List.keys, List.map_map]
    exact m.nodupKeys

/-- The order in which a range loop visits the entries of a map, which the language leaves open. -/
structure RangeOrder (K V : Type) where
  visit : GoMap K V → List (Σ _ : K, V)
  perm : ∀ m, (visit m).Perm m.entries

def sumBy [AddCommMonoid M] (f : K → V → M) (m : GoMap K V) : M :=
  (m.entries.map fun e => f e.1 e.2).sum

section Sums

variable [AddCommMonoid M]

theorem sumBy_add (f g : K → V → M) (m : GoMap K V) : sumBy (fun k v => f k v + g k v) m = sumBy f m + sumBy g m := by
  simp only [sumBy, sum_map_add]

theorem sumBy_zero (m : GoMap K V) : sumBy (fun _ _ => (0 : M)) m = 0 := by
  simp [sumBy]

end Sums

theorem length_eq_sumBy (m : GoMap K V) : m.entries.length = sumBy (fun _ _ => 1) m := by
  simp [sumBy]

variable [DecidableEq K]

variable {k j : K} {v : V} {keys : List K}

variable {m : GoMap K V}

theorem mem_entries_iff : (⟨k, v⟩ : Σ _ : K, V) ∈ m.entries ↔ m.lookup k = some v :=
  (AList.mem_lookup_iff (s := m)).symm

theorem eq_empty_of_lookup (none : ∀ k, m.lookup k = none) : m = ∅ := by
  apply AList.ext
  rw [AList.empty_entries, eq_nil_iff_forall_not_mem]
  intro e he
  have ht := mem_entries_iff.mp he
  rw [none e.1] at ht
  cases ht

theorem lookup_erase_eq (m : GoMap K V) (k j : K) : (m.erase k).lookup j = if j = k then none else m.lookup j := by
  split
  next h => subst h; exact AList.lookup_erase _ _
  next h => exact AList.lookup_erase_ne h

theorem lookup_of_erase (h : (m.erase k).lookup j = some v) : j ≠ k ∧ m.lookup j = some v := by
  rw [lookup_erase_eq] at h
  split at h
  · cases h
  next ne => exact ⟨ne, h⟩

theorem lookup_eraseKeys_eq (keys : List K) (m : GoMap K V) (j : K) :
    (keys.foldl (fun m k => m.erase k) m).lookup j = if j ∈ keys then none else m.lookup j := by
  induction keys generalizing m with
  | nil => simp
  | cons k keys ih =>
    rw [foldl_cons, ih, lookup_erase_eq]
    by_cases hl : j ∈ keys
    · simp [hl]
    · by_cases now : j = k <;> simp [now]

theorem lookup_eraseKeys (h : (keys.foldl (fun m k => m.erase k) m).lookup j = some v) : m.lookup j = some v := by
  rw [lookup_eraseKeys_eq] at h
  split at h
  · cases h
  · exact h

theorem length_erase_le (m : GoMap K V) (k : K) : (m.erase k).entries.length ≤ m.entries.length :=
  (kerase_sublist k m.entries).length_le

theorem length_eraseKeys_le (keys : List K) (m : GoMap K V) :
    (keys.foldl (fun m k => m.erase k) m).entries.length ≤ m.entries.length := by
  induction keys generalizing m with
  | nil => exact le_refl _
  | cons k _ ih => exact (ih (m.erase k)).trans (m.length_erase_le k)

theorem length_eraseKeys (hn : keys.Nodup) (there : ∀ k ∈ keys, k ∈ m.keys) :
    (keys.foldl (fun m k => m.erase k) m).entries.length + keys.length = m.entries.length := by
  induction keys generalizing m with
  | nil => rfl
  | cons k keys ih =>
    obtain ⟨fresh, hr⟩ := nodup_cons.mp hn
    have ho : ∀ j ∈ keys, j ∈ (m.erase k).keys := by
      intro j hj
      have ne : j ≠ k := by
        rintro rfl
        exact fresh hj
      rw [AList.keys_erase]
      exact (mem_erase_of_ne ne).mpr (there j (mem_cons_of_mem k hj))
    have one : (m.erase k).entries.length + 1 = m.entries.length := by
      have hl : ∀ map : GoMap K V, map.entries.length = map.keys.length :=
        fun map => (length_map _).symm
      have mem := there k mem_cons_self
      have hp := length_pos_of_mem mem
      rw [hl, hl, AList.keys_erase, length_erase_of_mem mem]
      omega
    have tail := ih hr ho
    rw [foldl_cons, length_cons]
    omega

theorem lookup_insert_eq (m : GoMap K V) (k j : K) (v : V) :
    (m.insert k v).lookup j = if j = k then some v else m.lookup j := by
  split
  next h => subst h; exact AList.lookup_insert _
  next h => exact AList.lookup_insert_ne h

theorem lookup_eraseLoop (p : K → V → Bool) (l : List (Σ _ : K, V)) (kept : GoMap K V) (j : K) :
    (l.foldl (fun kept e => if p e.1 e.2 then kept.erase e.1 else kept) kept).lookup j =
      if ∃ e ∈ l, e.1 = j ∧ p e.1 e.2 then none else kept.lookup j := by
  induction l generalizing kept with
  | nil => simp
  | cons e l ih =>
    rw [foldl_cons, ih]
    have head : (∃ x ∈ e :: l, x.1 = j ∧ p x.1 x.2) ↔
        (e.1 = j ∧ p e.1 e.2) ∨ ∃ x ∈ l, x.1 = j ∧ p x.1 x.2 := by
      simp only [mem_cons, or_and_right, exists_or, exists_eq_left]
    simp only [head]
    by_cases hl : ∃ x ∈ l, x.1 = j ∧ p x.1 x.2
    · rw [if_pos hl, if_pos (.inr hl)]
    · simp only [hl, or_false, if_false]
      cases hp : p e.1 e.2 with
      | false => simp
      | true => simp only [if_true, and_true, lookup_erase_eq, eq_comm (a := j)]

theorem lookup_deleteWhere (p : K → V → Bool) (m : GoMap K V) (j : K) :
    (m.deleteWhere p).lookup j = (m.lookup j).filter (fun v => !p j v) := by
  unfold deleteWhere AList.foldl
  rw [lookup_eraseLoop]
  cases h : m.lookup j with
  | none => simp
  | some v =>
    have hit : (∃ e ∈ m.entries, e.1 = j ∧ p e.1 e.2) ↔ p j v := by
      constructor
      · rintro ⟨⟨k, w⟩, hm, rfl, hp⟩
        have same := some.inj ((mem_entries_iff.mp hm).symm.trans h)
        subst same
        exact hp
      · exact fun hp => ⟨⟨j, v⟩, mem_entries_iff.mpr h, rfl, hp⟩
    simp only [hit, filter_some]
    cases p j v <;> simp

theorem lookup_collect {W : Type} (f : K → V → W) (m : GoMap K V) (j : K) :
    (m.collect f).lookup j = (m.lookup j).map (f j) := by
  have loop : ∀ (l : List (Σ _ : K, V)) (out : GoMap K W), l.NodupKeys →
      (l.foldl (fun out e => AList.insert e.1 (f e.1 e.2) out) out).lookup j =
        ((l.dlookup j).map (f j)).or (out.lookup j) := by
    intro l
    induction l with
    | nil => intro out _; simp
    | cons e _ ih =>
      intro _ nodup
      obtain ⟨k, v⟩ := e
      obtain ⟨fresh, rest⟩ := nodupKeys_cons.mp nodup
      rw [foldl_cons, ih _ rest, lookup_insert_eq]
      by_cases same : j = k
      · subst same
        simp [dlookup_eq_none.mpr fresh, dlookup_cons_eq]
      · rw [if_neg same, dlookup_cons_ne _ _ same]
  refine (loop m.entries ∅ m.nodupKeys).trans ?_
  rw [AList.lookup_empty, or_none]
  rfl

theorem lookup_mapValues {W : Type} (f : K → V → W) (m : GoMap K V) (j : K) :
    (m.mapValues f).lookup j = (m.lookup j).map (f j) := by
  have loop : ∀ l : List (Σ _ : K, V),
      (l.map fun e => (⟨e.1, f e.1 e.2⟩ : Σ _ : K, W)).dlookup j = (l.dlookup j).map (f j) := by
    intro l
    induction l with
    | nil => rfl
    | cons e _ ih =>
      obtain ⟨k, v⟩ := e
      rw [map_cons]
      by_cases same : j = k
      · subst same
        rw [dlookup_cons_eq, dlookup_cons_eq, map_some]
      · rw [dlookup_cons_ne _ _ same, dlookup_cons_ne _ _ same, ih]
  exact loop m.entries

theorem lookup_foldl_insert_notMem {α : Type} {key : α → K} {value : α → V} {l : List α}
    (ha : j ∉ l.map key) : (l.foldl (fun m a => m.insert (key a) (value a)) m).lookup j = m.lookup j := by
  induction l generalizing m with
  | nil => rfl
  | cons _ _ ih =>
    rw [map_cons, mem_cons, not_or] at ha
    rw [foldl_cons, ih ha.2, lookup_insert_eq, if_neg ha.1]

theorem lookup_foldl_insert {α : Type} {key : α → K} {value : α → V} {l : List α}
    (nodup : (l.map key).Nodup) {a : α} (mem : a ∈ l) :
    (l.foldl (fun m a => m.insert (key a) (value a)) m).lookup (key a) = some (value a) := by
  induction l generalizing m with
  | nil => cases mem
  | cons _ _ ih =>
    rw [map_cons, nodup_cons] at nodup
    rw [foldl_cons]
    rcases mem_cons.mp mem with rfl | mem
    · rw [lookup_foldl_insert_notMem nodup.1, lookup_insert_eq, if_pos rfl]
    · exact ih nodup.2 mem

theorem deleteWhere_of_none {p : K → V → Bool} (hn : ∀ k v, m.lookup k = some v → p k v = false) : m.deleteWhere p = m := by
  have hl : ∀ l : List (Σ _ : K, V), (∀ e ∈ l, p e.1 e.2 = false) →
      l.foldl (fun kept e => if p e.1 e.2 then AList.erase e.1 kept else kept) m = m := by
    intro l
    induction l with
    | nil => intro _; rfl
    | cons e _ ih =>
      intro h
      rw [foldl_cons, if_neg (by simp [h e (by simp)])]
      exact ih (fun x hx => h x (mem_cons_of_mem _ hx))
  exact hl m.entries (fun e he => hn e.1 e.2 (mem_entries_iff.mp he))

variable [AddCommMonoid M]

theorem sumBy_eq_of_lookup {f : K → V → M} {n : GoMap K V} (hs : ∀ k, m.lookup k = n.lookup k) : sumBy f m = sumBy f n := by
  have hp := lookup_ext m.nodupKeys n.nodupKeys (fun k v => by
      have h := hs k
      simp only [AList.lookup] at h
      rw [h])
  exact (hp.map _).sum_eq

theorem sumBy_congr {f g : K → V → M} (hs : ∀ k v, m.lookup k = some v → f k v = g k v) : sumBy f m = sumBy g m := by
  unfold sumBy
  congr 1
  apply map_congr_left
  intro e he
  exact hs e.1 e.2 (mem_entries_iff.mp he)

theorem sumBy_insert (f : K → V → M) (m : GoMap K V) (k : K) (v : V) :
    sumBy f (m.insert k v) = f k v + sumBy f (m.erase k) := by
  rfl

theorem sumBy_erase (f : K → V → M) (m : GoMap K V) (k : K) : sumBy f m = (m.lookup k).elim 0 (f k) + sumBy f (m.erase k) := by
  cases h : m.lookup k with
  | none =>
    rw [elim_none, zero_add]
    apply sumBy_eq_of_lookup
    intro j
    rw [lookup_erase_eq]
    split
    next hj => rw [hj, h]
    · rfl
  | some v =>
    rw [elim_some, ← sumBy_insert f m k v]
    apply sumBy_eq_of_lookup
    intro j
    rw [lookup_insert_eq]
    split
    next hj => rw [hj, h]
    · rfl

theorem sumBy_update {G : Type} [AddCommGroup G] (f : K → V → G) (m : GoMap K V) (k : K) (v : V) :
    sumBy f (m.insert k v) = sumBy f m + (f k v - (m.lookup k).elim 0 (f k)) := by
  rw [sumBy_insert, sumBy_erase f m k]
  abel

theorem sumBy_deleteWhere (f : K → V → M) (p : K → V → Bool) (m : GoMap K V) :
    sumBy f (m.deleteWhere p) = sumBy (fun k v => if p k v then 0 else f k v) m := by
  let kept : GoMap K V := ⟨m.entries.filter (fun e => !p e.1 e.2),
    m.nodupKeys.sublist filter_sublist⟩
  have hs : ∀ k, (m.deleteWhere p).lookup k = kept.lookup k := by
    intro k
    rw [lookup_deleteWhere]
    apply ext
    intro v
    rw [← mem_entries_iff (m := kept)]
    simp only [kept, mem_filter, mem_entries_iff, filter_eq_some_iff]
  rw [sumBy_eq_of_lookup hs]
  have hl : ∀ l : List (Σ _ : K, V),
      ((l.filter (fun e => !p e.1 e.2)).map fun e => f e.1 e.2).sum =
        (l.map fun e => if p e.1 e.2 then 0 else f e.1 e.2).sum := by
    intro l
    induction l with
    | nil => rfl
    | cons e _ ih => cases h : p e.1 e.2 <;> simp [h, ih]
  exact hl m.entries

theorem length_erase_of_lookup (ht : m.lookup k = some v) : (m.erase k).entries.length + 1 = m.entries.length := by
  have sum := sumBy_erase (fun _ _ => 1) m k
  rw [ht, elim_some, ← length_eq_sumBy, ← length_eq_sumBy] at sum
  omega

theorem length_insert_eq (m : GoMap K V) (k : K) (v : V) :
    (m.insert k v).entries.length = m.entries.length + if (m.lookup k).isSome then 0 else 1 := by
  have hi := sumBy_insert (fun _ _ => 1) m k v
  have he := sumBy_erase (fun _ _ => 1) m k
  simp only [← length_eq_sumBy] at hi he
  cases h : m.lookup k <;> simp [h] at hi he ⊢ <;> omega

theorem length_deleteWhere (p : K → V → Bool) (m : GoMap K V) :
    (m.deleteWhere p).entries.length + m.entries.countP (fun e => p e.1 e.2) = m.entries.length := by
  rw [length_eq_sumBy, sumBy_deleteWhere, sumBy]
  induction m.entries with
  | nil => rfl
  | cons e => cases h : p e.1 e.2 <;> simp [h] <;> omega

theorem length_le_sumBy {f : K → V → Int} (hn : ∀ k v, 0 ≤ f k v) (hno : keys.Nodup)
    (hit : ∀ k ∈ keys, ∃ v, m.lookup k = some v ∧ 1 ≤ f k v) : (keys.length : Int) ≤ sumBy f m := by
  induction keys generalizing m with
  | nil =>
    refine sum_nonneg fun x mem => ?_
    obtain ⟨e, _, rfl⟩ := mem_map.mp mem
    exact hn e.1 e.2
  | cons k _ ih =>
    obtain ⟨hf, hr⟩ := nodup_cons.mp hno
    obtain ⟨v, ht, hs⟩ := hit k mem_cons_self
    have tail := ih (m := m.erase k) hr (fun j mem => by
      obtain ⟨v, hfo, hs⟩ := hit j (mem_cons_of_mem k mem)
      refine ⟨v, ?_, hs⟩
      rw [lookup_erase_eq, if_neg, hfo]
      rintro rfl
      exact hf mem)
    rw [sumBy_erase f m k, ht, elim_some, length_cons]
    omega

structure Pointers (m : GoMap K Nat) (bound : Nat) : Prop where
  allocated : ∀ key ref, m.lookup key = some ref → ref < bound
  distinct : ∀ key other ref, m.lookup key = some ref → m.lookup other = some ref → key = other

namespace Pointers

variable {m m' : GoMap K Nat} {bound bound' : Nat}

theorem empty (bound : Nat) : Pointers (∅ : GoMap K Nat) bound :=
  ⟨fun _ _ h => by simp at h, fun _ _ _ h => by simp at h⟩

theorem sub (h : Pointers m bound) (sub : ∀ key ref, m'.lookup key = some ref → m.lookup key = some ref)
    (le : bound ≤ bound') : Pointers m' bound' :=
  ⟨fun key ref ht => lt_of_lt_of_le (h.allocated key ref (sub key ref ht)) le,
    fun key other ref ht ht' => h.distinct key other ref (sub key ref ht) (sub other ref ht')⟩

theorem mono (h : Pointers m bound) (le : bound ≤ bound') : Pointers m bound' := h.sub (fun _ _ ht => ht) le

theorem insertFresh (h : Pointers m bound) (key : K) : Pointers (m.insert key bound) (bound + 1) := by
  constructor
  · intro k ref hk
    rw [lookup_insert_eq] at hk
    split at hk
    · cases hk; exact Nat.lt_succ_self _
    · exact Nat.lt_succ_of_lt (h.allocated k ref hk)
  · intro k other ref hk ho
    rw [lookup_insert_eq] at hk ho
    split at hk <;> split at ho
    next a b => rw [a, b]
    next a b => cases hk; exact absurd (h.allocated _ _ ho) (lt_irrefl _)
    next a b => cases ho; exact absurd (h.allocated _ _ hk) (lt_irrefl _)
    next a b => exact h.distinct k other ref hk ho

end Pointers

end GoMap

end AsterCore
