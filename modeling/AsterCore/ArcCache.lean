import Mathlib.Logic.Function.Basic
import Mathlib.Data.List.Nodup

namespace AsterCore.Arc

inductive Place
  | t1
  | b1
  | t2
  | b2
  deriving DecidableEq

structure Entry (V : Type) where
  value : V
  ll : Option Place := none
  ghost : Bool := false
  expires : Int

/-- `ARC`. An entry is known by its key: `entry` has the fields of the one that was made last for a key,
`lists` has the keys from the most to the least recently used, and `cache` tells what the map has. -/
structure ARC (K V : Type) where
  p : Int := 0
  c : Int
  lists : Place → List K := fun _ => []
  len : Int := 0
  entry : K → Entry V
  cache : K → Bool := fun _ => false

namespace ARC

open Function

variable {K V : Type} [DecidableEq K] [Inhabited V]

def new (c : Int) : ARC K V := { c, entry := fun _ => { value := default, expires := 0 } }

def count (a : ARC K V) (list : Place) : Int := (a.lists list).length

def detach (a : ARC K V) (e : K) : ARC K V :=
  match (a.entry e).ll with
  | none => a
  | some list => { a with lists := update a.lists list ((a.lists list).erase e) }

def setMRU (a : ARC K V) (e : K) (list : Place) : ARC K V :=
  let a := a.detach e
  { a with entry := update a.entry e { a.entry e with ll := some list }, lists := update a.lists list (e :: a.lists list) }

/-- `delLRU`; nothing stands for the nil dereference at an empty list, here and below. -/
def delLRU (a : ARC K V) (list : Place) : Option (ARC K V) :=
  match (a.lists list).getLast? with
  | none => none
  | some lru => some { a with lists := update a.lists list (a.lists list).dropLast, len := a.len - 1, cache := update a.cache lru false }

/-- A branch of `replace`: the oldest entry of one list becomes a ghost in another. -/
def demote (a : ARC K V) (list ghosts : Place) : Option (ARC K V) :=
  match (a.lists list).getLast? with
  | none => none
  | some lru =>
    let a := { a with entry := update a.entry lru { a.entry lru with value := default, ghost := true }, len := a.len - 1 }
    some (a.setMRU lru ghosts)

def replace (a : ARC K V) (ent : K) : Option (ARC K V) :=
  if 0 < a.count .t1 ∧ (a.count .t1 > a.p ∨ (a.entry ent).ll = some .b2 ∧ a.count .t1 = a.p) then a.demote .t1 .b1
  else a.demote .t2 .b2

/-- How far `p` moves at a hit in the ghosts `own`; a division by zero has no result. -/
def adaptation (a : ARC K V) (own other : Place) : Option Int :=
  if a.count own ≥ a.count other then some 1
  else if a.count own = 0 then none
  else some (a.count other / a.count own)

def req (a : ARC K V) (ent : K) : Option (ARC K V) :=
  match (a.entry ent).ll with
  | some .t1 => some (a.setMRU ent .t2)
  | some .t2 => some (a.setMRU ent .t2)
  | some .b1 => do
    let d ← a.adaptation .b1 .b2
    let a ← { a with p := min (a.p + d) a.c }.replace ent
    return a.setMRU ent .t2
  | some .b2 => do
    let d ← a.adaptation .b2 .b1
    let a ← { a with p := max (a.p - d) 0 }.replace ent
    return a.setMRU ent .t2
  | none =>
    if a.count .t1 + a.count .b1 = a.c then
      if a.count .t1 < a.c then do
        let a ← a.delLRU .b1
        let a ← a.replace ent
        return a.setMRU ent .t1
      else do
        let a ← a.delLRU .t1
        return a.setMRU ent .t1
    else if a.count .t1 + a.count .b1 < a.c then
      if a.count .t1 + a.count .t2 + a.count .b1 + a.count .b2 ≥ a.c then do
        let a ← if a.count .t1 + a.count .t2 + a.count .b1 + a.count .b2 = 2 * a.c then a.delLRU .b2 else some a
        let a ← a.replace ent
        return a.setMRU ent .t1
      else some (a.setMRU ent .t1)
    else some (a.setMRU ent .t1)

def setWithExpire (a : ARC K V) (key : K) (value : V) (expires : Int) : Option (ARC K V) :=
  if a.cache key = false then do
    let a := { a with len := a.len + 1, entry := update a.entry key { value, expires } }
    let a ← a.req key
    return { a with cache := update a.cache key true }
  else
    let a := if (a.entry key).ghost then { a with len := a.len + 1 } else a
    { a with entry := update a.entry key { a.entry key with value, ghost := false, expires } }.req key

def get (a : ARC K V) (key : K) : Option (ARC K V × Option (V × Int)) :=
  if a.cache key = false then some (a, none)
  else do
    let a ← a.req key
    return (a, if (a.entry key).ghost then none else some ((a.entry key).value, (a.entry key).expires))

end ARC

/-- The calls: `Set` is `SetWithExpire` at time zero, and `Get` and `GetWithExpire` are `get`. -/
inductive Op (K V : Type)
  | set (key : K) (value : V)
  | setWithExpire (key : K) (value : V) (expires : Int)
  | get (key : K)
  | getWithExpire (key : K)

namespace ARC

section

variable {K V : Type} [DecidableEq K] [Inhabited V]

def step (a : ARC K V) : Op K V → Option (ARC K V)
  | .set key value => a.setWithExpire key value 0
  | .setWithExpire key value expires => a.setWithExpire key value expires
  | .get key => (a.get key).map Prod.fst
  | .getWithExpire key => (a.get key).map Prod.fst

def run (a : ARC K V) : List (Op K V) → Option (ARC K V)
  | [] => some a
  | op :: ops => (a.step op).bind fun a => a.run ops

end

open Function

variable {K V : Type}

structure Linked (a : ARC K V) : Prop where
  nodup : ∀ list, (a.lists list).Nodup
  mem : ∀ list k, k ∈ a.lists list ↔ a.cache k = true ∧ (a.entry k).ll = some list
  placed : ∀ k, a.cache k = true → ∃ list, (a.entry k).ll = some list

variable {b : ARC K V}

variable {a : ARC K V}

theorem Linked.congr (h : a.Linked) (hl : b.lists = a.lists) (hca : b.cache = a.cache)
    (ll : ∀ k, a.cache k = true → (b.entry k).ll = (a.entry k).ll) : b.Linked := by
  refine ⟨fun list => hl ▸ h.nodup list, fun list k => ?_, fun k ht => ?_⟩
  · rw [hl, hca, h.mem]
    exact and_congr_right fun hc => by rw [ll k hc]
  · rw [hca] at ht
    rw [ll k ht]
    exact h.placed k ht

structure Shrinks (a a' : ARC K V) (ent : K) : Prop where
  linked : a'.Linked
  p : a'.p = a.p
  c : a'.c = a.c
  entry : a'.entry ent = a.entry ent
  cache : a'.cache ent = a.cache ent
  within : ∀ k, a'.cache k = true → (a'.entry k).ghost = false →
    a.cache k = true ∧ (a.entry k).ghost = false ∧ (a'.entry k).value = (a.entry k).value

theorem Shrinks.refl (h : a.Linked) (ent : K) : Shrinks a a ent := ⟨h, rfl, rfl, rfl, rfl, fun _ hc hf => ⟨hc, hf, rfl⟩⟩

variable {ent : K}

theorem Shrinks.trans {a₁ a₂ : ARC K V} (h : Shrinks a a₁ ent) (h' : Shrinks a₁ a₂ ent) : Shrinks a a₂ ent := by
  refine ⟨h'.linked, h'.p.trans h.p, h'.c.trans h.c, h'.entry.trans h.entry, h'.cache.trans h.cache, fun k hc hf => ?_⟩
  obtain ⟨hc', hf', hv'⟩ := h'.within k hc hf
  obtain ⟨hc'', hf'', hv''⟩ := h.within k hc' hf'
  exact ⟨hc'', hf'', hv'.trans hv''⟩

variable {list : Place}

theorem getLast_of_count (hf : 0 < a.count list) : ∃ lru, (a.lists list).getLast? = some lru ∧ lru ∈ a.lists list := by
  have hn : a.lists list ≠ [] := by
    intro he
    rw [count, he] at hf
    simp at hf
  exact ⟨_, List.getLast?_eq_some_getLast hn, List.getLast_mem hn⟩

structure Sized (a : ARC K V) : Prop where
  positive : 1 ≤ a.c
  cached : a.count .t1 + a.count .t2 ≤ a.c
  recent : a.count .t1 + a.count .b1 ≤ a.c
  total : a.count .t1 + a.count .t2 + a.count .b1 + a.count .b2 ≤ 2 * a.c
  ghosts : 0 < a.count .b1 + a.count .b2 → a.count .t1 + a.count .t2 = a.c
  target : 0 ≤ a.p ∧ a.p ≤ a.c

theorem count_nonneg (a : ARC K V) (list : Place) : 0 ≤ a.count list := Int.natCast_nonneg _

theorem Linked.count_pos (h : a.Linked) (hr : a.cache ent = true ∨ (a.entry ent).ll = none)
    (hh : (a.entry ent).ll = some list) : 0 < a.count list := by
  have hc : a.cache ent = true := by
    rcases hr with hc | new
    · exact hc
    · rw [hh] at new
      cases new
  exact Int.natCast_pos.mpr (List.length_pos_of_mem ((h.mem list ent).mpr ⟨hc, hh⟩))

variable [DecidableEq K]

def keep (a : ARC K V) (k : K) : ARC K V := { a with cache := update a.cache k true }

theorem keep_cached {k : K} (hc : a.cache k = true) : a.keep k = a := by
  rw [keep, ← hc, update_eq_self]

theorem lists_setMRU (a : ARC K V) (e : K) (list list' : Place) :
    (a.setMRU e list).lists list' = if list' = list then e :: (a.detach e).lists list' else (a.detach e).lists list' := by
  simp only [setMRU, update_apply]
  split
  next hs => rw [hs]
  · rfl

theorem lists_detach (a : ARC K V) (e : K) (list : Place) :
    (a.detach e).lists list = if (a.entry e).ll = some list then (a.lists list).erase e else a.lists list := by
  unfold detach
  cases (a.entry e).ll with
  | none => simp
  | some =>
    simp only [update_apply, Option.some.injEq, eq_comm]
    split
    next hs => rw [hs]
    · rfl

theorem entry_detach (a : ARC K V) (e : K) : (a.detach e).entry = a.entry := by
  unfold detach
  split
  · rfl
  · rfl

theorem setMRU_fields (a : ARC K V) (e : K) (list : Place) :
    (a.setMRU e list).entry = update a.entry e { a.entry e with ll := some list } ∧ (a.setMRU e list).cache = a.cache ∧
      (a.setMRU e list).p = a.p ∧ (a.setMRU e list).c = a.c := by
  have hf : (a.detach e).cache = a.cache ∧ (a.detach e).p = a.p ∧ (a.detach e).c = a.c := by
    unfold detach
    split
    · exact ⟨rfl, rfl, rfl⟩
    · exact ⟨rfl, rfl, rfl⟩
  refine ⟨?_, hf⟩
  simp only [setMRU, entry_detach]

theorem ll_setMRU (a : ARC K V) (e k : K) (list : Place) :
    ((a.setMRU e list).entry k).ll = if k = e then some list else (a.entry k).ll := by
  rw [(setMRU_fields a e list).1, update_apply]
  split <;> rfl

theorem Linked.setMRU (h : a.Linked) {e : K} (hr : a.cache e = true ∨ (a.entry e).ll = none) (list : Place) :
    ((a.setMRU e list).keep e).Linked ∧
      ∀ list', (a.setMRU e list).count list' = a.count list' -
    (if (a.entry e).ll = some list' then 1 else 0) + if list' = list then 1 else 0 := by
  have hi : ∀ {list'}, (a.entry e).ll = some list' → e ∈ a.lists list' := by
    intro list' own
    refine (h.mem list' e).mpr ⟨?_, own⟩
    rcases hr with hc | new
    · exact hc
    · rw [new] at own
      cases own
  have ho : ∀ list', e ∉ (a.detach e).lists list' := by
    intro list'
    rw [lists_detach]
    split
    · exact (h.nodup list').not_mem_erase
    next hor => exact fun mem => hor ((h.mem list' e).mp mem).2
  have hn : ∀ list', ((a.detach e).lists list').Nodup := by
    intro list'
    rw [lists_detach]
    split
    · exact (h.nodup list').erase e
    · exact h.nodup list'
  have hot : ∀ {list' k}, k ≠ e → (k ∈ (a.setMRU e list).lists list' ↔ k ∈ a.lists list') := by
    intro _ k hor
    rw [lists_setMRU, lists_detach]
    split
    · split
      · rw [List.mem_cons, List.mem_erase_of_ne hor, or_iff_right hor]
      · rw [List.mem_cons, or_iff_right hor]
    · split
      · rw [List.mem_erase_of_ne hor]
      · rfl
  have own : ∀ list', e ∈ (a.setMRU e list).lists list' ↔ list = list' := by
    intro list'
    rw [lists_setMRU]
    split
    next hs => simp [hs]
    next hd => exact iff_of_false (ho list') (Ne.symm hd)
  refine ⟨⟨fun list' => ?_, fun list' k => ?_, fun k hc => ?_⟩, fun list' => ?_⟩
  · show ((a.setMRU e list).lists list').Nodup
    rw [lists_setMRU]
    split
    · exact List.nodup_cons.mpr ⟨ho list', hn list'⟩
    · exact hn list'
  · show k ∈ (a.setMRU e list).lists list' ↔ update (a.setMRU e list).cache e true k = true ∧ ((a.setMRU e list).entry k).ll = some list'
    rw [ll_setMRU, (setMRU_fields a e list).2.1]
    by_cases hs : k = e
    · subst hs
      simp [own]
    · rw [hot hs, h.mem]
      simp [hs]
  · show ∃ list', ((a.setMRU e list).entry k).ll = some list'
    rw [ll_setMRU]
    split
    · exact ⟨list, rfl⟩
    next hor =>
      have old : update (a.setMRU e list).cache e true k = true := hc
      rw [update_of_ne hor, (setMRU_fields a e list).2.1] at old
      exact h.placed k old
  · unfold count
    rw [lists_setMRU, lists_detach]
    have he : (a.entry e).ll = some list' → ((a.lists list').erase e).length = (a.lists list').length - 1 ∧ 0 < (a.lists list').length := by
      intro hh
      exact ⟨List.length_erase_of_mem (hi hh), List.length_pos_of_mem (hi hh)⟩
    split
    · split
      next hh =>
        have := he hh
        rw [List.length_cons]
        omega
      · rw [List.length_cons]
        omega
    · split
      next hh =>
        have := he hh
        omega
      · omega

theorem Linked.delLRU (h : a.Linked) (full : 0 < a.count list) (he : (a.entry ent).ll ≠ some list) :
    ∃ a', a.delLRU list = some a' ∧ Shrinks a a' ent ∧ ∀ list', a'.count list' = a.count list' - if list' = list then 1 else 0 := by
  obtain ⟨lru, last, mem⟩ := getLast_of_count full
  have hs := (List.dropLast_append_getLast? lru last).symm
  obtain ⟨_, own⟩ := (h.mem list lru).mp mem
  have hn := h.nodup list
  rw [hs, List.nodup_append] at hn
  have hg : lru ∉ (a.lists list).dropLast := fun ht => hn.2.2 lru ht lru (List.mem_singleton_self _) rfl
  have hl : ∀ {list' k}, k ≠ lru → (k ∈ update a.lists list (a.lists list).dropLast list' ↔ k ∈ a.lists list') := by
    intro list' k ho
    by_cases same : list' = list
    · subst same
      conv_rhs => rw [hs]
      simp [ho]
    · rw [update_of_ne same]
  refine ⟨{ a with lists := update a.lists list (a.lists list).dropLast, len := a.len - 1, cache := update a.cache lru false },
    by rw [ARC.delLRU, last], ⟨⟨fun list' => ?_, fun list' k => ?_, fun k ht => ?_⟩, rfl, rfl, rfl, ?_, fun k ht hf => ?_⟩, fun list' => ?_⟩
  · show (update a.lists list (a.lists list).dropLast list').Nodup
    by_cases same : list' = list
    · subst same
      rw [update_self]
      exact hn.1
    · rw [update_of_ne same]
      exact h.nodup list'
  · show k ∈ update a.lists list (a.lists list).dropLast list' ↔ update a.cache lru false k = true ∧ (a.entry k).ll = some list'
    by_cases same : k = lru
    · subst same
      refine iff_of_false (fun ht => ?_) (by simp)
      by_cases hh : list' = list
      · subst hh
        rw [update_self] at ht
        exact hg ht
      · rw [update_of_ne hh] at ht
        have ho := ((h.mem list' k).mp ht).2
        rw [own] at ho
        exact hh (Option.some.inj ho).symm
    · rw [hl same, update_of_ne same, h.mem]
  · have ht' : update a.cache lru false k = true := ht
    by_cases same : k = lru
    · subst same
      simp at ht'
    · rw [update_of_ne same] at ht'
      exact h.placed k ht'
  · show update a.cache lru false ent = a.cache ent
    rw [update_of_ne]
    rintro rfl
    exact he own
  · have ht' : update a.cache lru false k = true := ht
    by_cases same : k = lru
    · subst same
      simp at ht'
    · rw [update_of_ne same] at ht'
      exact ⟨ht', hf, rfl⟩
  · show ((update a.lists list (a.lists list).dropLast list').length : Int) = (a.lists list').length - _
    by_cases same : list' = list
    · subst same
      have hp := List.length_pos_of_mem mem
      rw [update_self, List.length_dropLast, if_pos rfl]
      omega
    · rw [update_of_ne same, if_neg same]
      omega

structure Requested (a a' : ARC K V) (ent : K) : Prop where
  linked : (a'.keep ent).Linked
  sized : a'.Sized
  c : a'.c = a.c
  cache : a'.cache ent = a.cache ent
  value : (a'.entry ent).value = (a.entry ent).value
  ghost : (a'.entry ent).ghost = (a.entry ent).ghost
  within : ∀ k, k ≠ ent → a'.cache k = true → (a'.entry k).ghost = false →
    a.cache k = true ∧ (a.entry k).ghost = false ∧ (a'.entry k).value = (a.entry k).value

theorem Shrinks.request (h : Shrinks a b ent) (hr : a.cache ent = true ∨ (a.entry ent).ll = none)
    (hs : (b.setMRU ent list).Sized) : Requested a (b.setMRU ent list) ent := by
  have hf := setMRU_fields b ent list
  have own : (b.setMRU ent list).entry ent = { a.entry ent with ll := some list } := by rw [hf.1, update_self, h.entry]
  refine ⟨(h.linked.setMRU (by rw [h.cache, h.entry]; exact hr) list).1, hs, hf.2.2.2.trans h.c, ?_, by rw [own], by rw [own],
    fun k ho ht hfr => ?_⟩
  · rw [hf.2.1, h.cache]
  · rw [hf.2.1] at ht
    rw [hf.1, update_of_ne ho] at hfr ⊢
    exact h.within k ht hfr

theorem Shrinks.count (h : Shrinks a b ent) (hr : a.cache ent = true ∨ (a.entry ent).ll = none) (list list' : Place) :
    (b.setMRU ent list).count list' = b.count list' -
    (if (a.entry ent).ll = some list' then 1 else 0) + if list' = list then 1 else 0 := by
  rw [(h.linked.setMRU (by rw [h.cache, h.entry]; exact hr) list).2, h.entry]

theorem Linked.request_hit (h : a.Linked) (hs : a.Sized) (hr : a.cache ent = true ∨ (a.entry ent).ll = none)
    (hit : (a.entry ent).ll = some .t1 ∨ (a.entry ent).ll = some .t2) : Requested a (a.setMRU ent .t2) ent := by
  have same := Shrinks.refl h ent
  have hc := same.count hr .t2
  have hf := setMRU_fields a ent .t2
  refine same.request hr ?_
  obtain ⟨_, _, _, _, _, _⟩ := hs
  rcases hit with hh | hh <;> have some := h.count_pos hr hh
  all_goals constructor <;> simp [hc, hf, hh] <;> omega

theorem Shrinks.request_new (h : Shrinks a b ent) (new : (a.entry ent).ll = none) (hp : 1 ≤ a.c)
    (cached : b.count .t1 + b.count .t2 + 1 ≤ a.c) (hr : b.count .t1 + b.count .b1 + 1 ≤ a.c)
    (total : b.count .t1 + b.count .t2 + b.count .b1 + b.count .b2 + 1 ≤ 2 * a.c)
    (hg : 0 < b.count .b1 + b.count .b2 → b.count .t1 + b.count .t2 + 1 = a.c) (ht : 0 ≤ a.p ∧ a.p ≤ a.c) :
    Requested a (b.setMRU ent .t1) ent := by
  have hc := h.count (.inr new) .t1
  have hf := setMRU_fields b ent .t1
  have p := h.p
  have c := h.c
  refine h.request (.inr new) ?_
  constructor <;> simp [hc, hf, new] <;> omega

structure Valid (a : ARC K V) (latest : K → Option V) : Prop where
  linked : a.Linked
  sized : a.Sized
  values : ∀ k, a.cache k = true → (a.entry k).ghost = false → latest k = some (a.entry k).value

theorem Requested.valid {a a' : ARC K V} {ent : K} (r : Requested a a' ent) {latest : K → Option V}
    (own : (a.entry ent).ghost = false → latest ent = some (a.entry ent).value)
    (ho : ∀ k, k ≠ ent → a.cache k = true → (a.entry k).ghost = false → latest k = some (a.entry k).value) :
    (a'.keep ent).Valid latest := by
  refine ⟨r.linked, ⟨r.sized.positive, r.sized.cached, r.sized.recent, r.sized.total, r.sized.ghosts, r.sized.target⟩, fun k ht hf => ?_⟩
  have hf' : (a'.entry k).ghost = false := hf
  show latest k = some (a'.entry k).value
  by_cases hs : k = ent
  · subst hs
    rw [r.ghost] at hf'
    rw [r.value]
    exact own hf'
  · have ht' : update a'.cache ent true k = true := ht
    rw [update_of_ne hs] at ht'
    obtain ⟨hc, hf'', hv⟩ := r.within k hs ht' hf'
    rw [hv]
    exact ho k hs hc hf''

variable [Inhabited V]

theorem Linked.demote (h : a.Linked) (ghosts : Place) (full : 0 < a.count list) (he : (a.entry ent).ll ≠ some list) :
    ∃ a', a.demote list ghosts = some a' ∧ Shrinks a a' ent ∧
      ∀ list', a'.count list' = a.count list' - (if list' = list then 1 else 0) + if list' = ghosts then 1 else 0 := by
  obtain ⟨lru, last, mem⟩ := getLast_of_count full
  obtain ⟨hc, own⟩ := (h.mem list lru).mp mem
  -- The entry as a ghost, still in its list.
  let b : ARC K V := { a with entry := update a.entry lru { a.entry lru with value := default, ghost := true }, len := a.len - 1 }
  have ll : ∀ k, (b.entry k).ll = (a.entry k).ll := by
    intro k
    by_cases hs : k = lru
    · subst hs
      simp [b]
    · simp [b, hs]
  have hl : b.Linked := h.congr rfl rfl fun k _ => ll k
  obtain ⟨hm, hco⟩ := hl.setMRU (.inl hc) ghosts
  have hf := setMRU_fields b lru ghosts
  have hk : (b.setMRU lru ghosts).cache lru = true := by rw [hf.2.1]; exact hc
  rw [keep_cached hk] at hm
  have hen : ∀ {k}, k ≠ lru → (b.setMRU lru ghosts).entry k = a.entry k := by
    intro k ho
    rw [hf.1, update_of_ne ho]
    exact update_of_ne ho _ _
  refine ⟨b.setMRU lru ghosts, by rw [ARC.demote, last], ⟨hm, hf.2.2.1, hf.2.2.2, hen ?_, by rw [hf.2.1], fun k ht hfr => ?_⟩,
    fun list' => ?_⟩
  · rintro rfl
    exact he own
  · by_cases hs : k = lru
    · subst hs
      rw [hf.1] at hfr
      simp [b] at hfr
    · rw [hf.2.1] at ht
      rw [hen hs] at hfr ⊢
      exact ⟨ht, hfr, rfl⟩
  · rw [hco, ll, own]
    have eq : (some list = some list') = (list' = list) := by simp [eq_comm]
    simp only [eq]
    rfl

theorem Linked.replace (h : a.Linked) (ent : K) (he : (a.entry ent).ll ≠ some .t1 ∧ (a.entry ent).ll ≠ some .t2)
    (hr : ¬ (0 < a.count .t1 ∧ (a.count .t1 > a.p ∨ (a.entry ent).ll = some .b2 ∧ a.count .t1 = a.p)) → 0 < a.count .t2) :
    ∃ a', a.replace ent = some a' ∧ Shrinks a a' ent ∧
      ((a'.count .t1 = a.count .t1 - 1 ∧ a'.count .b1 = a.count .b1 + 1 ∧ a'.count .t2 = a.count .t2 ∧ a'.count .b2 = a.count .b2) ∨
        a'.count .t1 = a.count .t1 ∧ a'.count .b1 = a.count .b1 ∧ a'.count .t2 = a.count .t2 - 1 ∧ a'.count .b2 = a.count .b2 + 1) := by
  unfold ARC.replace
  split
  next hf =>
    obtain ⟨a', hd, hs, hc⟩ := h.demote .b1 hf.1 he.1
    exact ⟨a', hd, hs, .inl ⟨by simp [hc], by simp [hc], by simp [hc], by simp [hc]⟩⟩
  next hse =>
    obtain ⟨a', hd, hs, hc⟩ := h.demote .b2 (hr hse) he.2
    exact ⟨a', hd, hs, .inr ⟨by simp [hc], by simp [hc], by simp [hc], by simp [hc]⟩⟩

theorem Linked.request_ghost (h : a.Linked) (hsi : a.Sized) (hr : a.cache ent = true ∨ (a.entry ent).ll = none)
    (hg : (a.entry ent).ll = some .b1 ∨ (a.entry ent).ll = some .b2) :
    ∃ a', a.replace ent = some a' ∧ Requested a (a'.setMRU ent .t2) ent := by
  have n₂ := a.count_nonneg .b1
  have n₄ := a.count_nonneg .b2
  obtain ⟨_, _, _, _, _, _⟩ := hsi
  rcases hg with hh | hh <;> have some := h.count_pos hr hh
  all_goals
    obtain ⟨a', hd, hs, _⟩ := h.replace ent (by simp [hh]) (fun full => by simp [hh] at full; omega)
    have hc := hs.count hr .t2
    have hf := setMRU_fields a' ent .t2
    have p := hs.p
    have c := hs.c
    refine ⟨a', hd, hs.request hr ?_⟩
    constructor <;> simp [hc, hf, hh] <;> omega

theorem Linked.request_new (h : a.Linked) (hs : a.Sized) (new : (a.entry ent).ll = none) :
    ∃ a', a.req ent = some a' ∧ Requested a a' ent := by
  have n₁ := a.count_nonneg .t1
  have n₂ := a.count_nonneg .b1
  have n₄ := a.count_nonneg .b2
  obtain ⟨hp, _, _, _, hg, ht⟩ := hs
  have ha : ∀ list, (a.entry ent).ll ≠ some list := by simp [new]
  unfold req
  rw [new]
  dsimp only
  split
  next full =>
    split
    next short =>
      obtain ⟨_, hd, hs₁, hc₁⟩ := h.delLRU (by omega : 0 < a.count .b1) (ha _)
      have t1 := hc₁ .t1
      have t2 := hc₁ .t2
      have b1 := hc₁ .b1
      have b2 := hc₁ .b2
      simp only [reduceCtorEq, if_false, if_true] at t1 t2 b1 b2
      obtain ⟨a₂, hr, hs₂, _⟩ := hs₁.linked.replace ent (by simp [hs₁.entry, new]) (fun _ => by omega)
      refine ⟨a₂.setMRU ent .t1, by simp [hd, hr], (hs₁.trans hs₂).request_new new hp ?_ ?_ ?_ ?_ ht⟩
      all_goals omega
    · obtain ⟨a₁, hd, hs₁, hc₁⟩ := h.delLRU (by omega : 0 < a.count .t1) (ha _)
      have t1 := hc₁ .t1
      have t2 := hc₁ .t2
      have b1 := hc₁ .b1
      have b2 := hc₁ .b2
      simp only [reduceCtorEq, if_false, if_true] at t1 t2 b1 b2
      refine ⟨a₁.setMRU ent .t1, by simp [hd], hs₁.request_new new hp ?_ ?_ ?_ ?_ ht⟩
      all_goals omega
  · rw [if_pos (by omega)]
    split
    next hl =>
      -- Then the cache is full, since there are no ghosts otherwise.
      have hf : ∀ a₁ : ARC K V, Shrinks a a₁ ent → a₁.count .t1 = a.count .t1 → a₁.count .t2 = a.count .t2 →
          a₁.count .b1 = a.count .b1 → a₁.count .t1 + a₁.count .t2 + a₁.count .b1 + a₁.count .b2 < 2 * a.c →
          ∃ a₂, a₁.replace ent = some a₂ ∧ Requested a (a₂.setMRU ent .t1) ent := by
        intro _ hs₁ _ _ _ _
        obtain ⟨a₂, hr, hs₂, _⟩ := hs₁.linked.replace ent (by simp [hs₁.entry, new]) (fun _ => by omega)
        refine ⟨a₂, hr, (hs₁.trans hs₂).request_new new hp ?_ ?_ ?_ ?_ ht⟩
        all_goals omega
      split
      next double =>
        obtain ⟨a₁, hd, hs₁, hc₁⟩ := h.delLRU (by omega : 0 < a.count .b2) (ha _)
        have t1 := hc₁ .t1
        have t2 := hc₁ .t2
        have b1 := hc₁ .b1
        have b2 := hc₁ .b2
        simp only [reduceCtorEq, if_false, if_true] at t1 t2 b1 b2
        obtain ⟨_, hr, r⟩ := hf a₁ hs₁ (by omega) (by omega) (by omega) (by omega)
        exact ⟨_, by simp [hd, hr], r⟩
      · obtain ⟨_, hr, r⟩ := hf a (.refl h ent) rfl rfl rfl (by omega)
        exact ⟨_, by simp [hr], r⟩
    · refine ⟨a.setMRU ent .t1, rfl, (Shrinks.refl h ent).request_new new hp ?_ ?_ ?_ ?_ ht⟩
      all_goals omega

omit [DecidableEq K] [Inhabited V] in
theorem adaptation_some (a : ARC K V) {own : Place} (other : Place) (hf : 0 < a.count own) :
    ∃ d, a.adaptation own other = some d ∧ 0 ≤ d := by
  unfold adaptation
  split
  · exact ⟨1, rfl, by omega⟩
  · rw [if_neg (by omega)]
    exact ⟨_, rfl, Int.ediv_nonneg (a.count_nonneg other) (Int.le_of_lt hf)⟩

theorem Linked.req {a : ARC K V} (h : a.Linked) (hs : a.Sized) {ent : K} (hr : a.cache ent = true ∨ (a.entry ent).ll = none) :
    ∃ a', a.req ent = some a' ∧ Requested a a' ent := by
  -- `p` is all that the adaptation changes.
  have hg : ∀ p, 0 ≤ p → p ≤ a.c → (a.entry ent).ll = some .b1 ∨ (a.entry ent).ll = some .b2 →
      ∃ a', ({ a with p } : ARC K V).replace ent = some a' ∧ Requested a (a'.setMRU ent .t2) ent := by
    intro p low high hh
    have hl : ({ a with p } : ARC K V).Linked := ⟨h.nodup, h.mem, h.placed⟩
    have hs' : ({ a with p } : ARC K V).Sized := ⟨hs.positive, hs.cached, hs.recent, hs.total, hs.ghosts, low, high⟩
    obtain ⟨a', hd, r⟩ := hl.request_ghost hs' hr hh
    exact ⟨a', hd, r.linked, r.sized, r.c, r.cache, r.value, r.ghost, r.within⟩
  have ht := hs.target
  cases hh : (a.entry ent).ll with
  | none => exact h.request_new hs hh
  | some list =>
    have hf := h.count_pos hr hh
    unfold ARC.req
    rw [hh]
    cases list with
    | t1 => exact ⟨_, rfl, h.request_hit hs hr (.inl hh)⟩
    | t2 => exact ⟨_, rfl, h.request_hit hs hr (.inr hh)⟩
    | b1 =>
      obtain ⟨d, ha, _⟩ := a.adaptation_some .b2 hf
      obtain ⟨_, hd, r⟩ := hg (min (a.p + d) a.c) (by omega) (by omega) (.inl hh)
      exact ⟨_, by simp [ha, hd], r⟩
    | b2 =>
      obtain ⟨d, ha, _⟩ := a.adaptation_some .b1 hf
      obtain ⟨_, hd, r⟩ := hg (max (a.p - d) 0) (by omega) (by omega) (.inr hh)
      exact ⟨_, by simp [ha, hd], r⟩

theorem Valid.setWithExpire {latest : K → Option V} (h : a.Valid latest) (key : K) (value : V) (expires : Int) :
    ∃ a', a.setWithExpire key value expires = some a' ∧ a'.Valid (update latest key (some value)) ∧ a'.c = a.c := by
  have ho : ∀ {k}, k ≠ key → update latest key (some value) k = latest k := fun hd => update_of_ne hd _ _
  unfold ARC.setWithExpire
  split
  next ha =>
    let b : ARC K V := { a with len := a.len + 1, entry := update a.entry key { value, expires } }
    have he : ∀ {k}, k ≠ key → b.entry k = a.entry k := fun hd => update_of_ne hd _ _
    have own : b.entry key = { value, expires } := update_self _ _ _
    have hl : b.Linked := by
      refine h.linked.congr rfl rfl fun k hc => ?_
      rw [he]
      rintro rfl
      rw [ha] at hc
      cases hc
    have hs : b.Sized := ⟨h.sized.positive, h.sized.cached, h.sized.recent, h.sized.total, h.sized.ghosts, h.sized.target⟩
    obtain ⟨a', done, r⟩ := @Linked.req K V _ _ b hl hs key (.inr (by rw [own]))
    refine ⟨a'.keep key, by simp only [b] at done; simp [done, keep], r.valid (fun _ => ?_) fun k hd hc hf => ?_, r.c⟩
    · rw [own, update_self]
    · rw [he hd] at hf ⊢
      rw [ho hd]
      exact h.values k hc hf
  next hp =>
    have hc : a.cache key = true := by simpa using hp
    obtain ⟨len, hco⟩ : ∃ len, (if (a.entry key).ghost = true then { a with len := a.len + 1 } else a) = ({ a with len } : ARC K V) := by
      split
      · exact ⟨_, rfl⟩
      · exact ⟨a.len, rfl⟩
    let b : ARC K V := { a with len, entry := update a.entry key { a.entry key with value, ghost := false, expires } }
    have he : ∀ {k}, k ≠ key → b.entry k = a.entry k := fun hd => update_of_ne hd _ _
    have own : b.entry key = { a.entry key with value, ghost := false, expires } := update_self _ _ _
    have ll : ∀ k, (b.entry k).ll = (a.entry k).ll := by
      intro k
      by_cases same : k = key
      · subst same
        rw [own]
      · rw [he same]
    have hl : b.Linked := h.linked.congr rfl rfl fun k _ => ll k
    have hs : b.Sized := ⟨h.sized.positive, h.sized.cached, h.sized.recent, h.sized.total, h.sized.ghosts, h.sized.target⟩
    obtain ⟨a', done, r⟩ := hl.req hs (.inl hc)
    have hv := @Requested.valid K V _ b a' key r (update latest key (some value)) (fun _ => by rw [own, update_self])
      fun k hd ht hf => by
        rw [he hd] at hf ⊢
        rw [ho hd]
        exact h.values k ht hf
    rw [keep_cached (r.cache.trans hc)] at hv
    refine ⟨a', ?_, hv, r.c⟩
    simp only [hco]
    exact done

theorem Valid.get {latest : K → Option V} (h : a.Valid latest) (key : K) :
    ∃ a' result, a.get key = some (a', result) ∧ a'.Valid latest ∧ a'.c = a.c ∧
      (result.isSome = true ↔ a.cache key = true ∧ (a.entry key).ghost = false) ∧
      ∀ v expires, result = some (v, expires) → latest key = some v := by
  unfold ARC.get
  split
  next ha => exact ⟨a, none, rfl, h, rfl, by simp [ha], by simp⟩
  next hp =>
    have hc : a.cache key = true := by simpa using hp
    obtain ⟨a', hd, r⟩ := h.linked.req h.sized (.inl hc)
    have hv := r.valid (h.values key hc) fun k _ => h.values k
    have hk := r.cache.trans hc
    rw [keep_cached hk] at hv
    refine ⟨a', _, by rw [hd]; rfl, hv, r.c, ?_, fun v expires hit => ?_⟩
    · rw [r.ghost, hc]
      cases (a.entry key).ghost <;> simp
    · split at hit <;> cases hit
      next hf => exact hv.values key hk (by simpa using hf)

end ARC

def latest {K V : Type} [DecidableEq K] : List (Op K V) → (K → Option V) → K → Option V
  | [], values => values
  | .set key value :: ops, values => latest ops (Function.update values key (some value))
  | .setWithExpire key value _ :: ops, values => latest ops (Function.update values key (some value))
  | .get _ :: ops, values => latest ops values
  | .getWithExpire _ :: ops, values => latest ops values

namespace ARC

variable {K V : Type} [Inhabited V]

theorem new_valid {c : Int} (hp : 1 ≤ c) : (new c : ARC K V).Valid fun _ => none := by
  have hs : (new c : ARC K V).c = c := rfl
  have he : ∀ list, (new c : ARC K V).count list = 0 := fun _ => rfl
  refine ⟨⟨fun _ => List.nodup_nil, fun list k => ?_, fun k ht => ?_⟩, ⟨hp, ?_, ?_, ?_, ?_, Int.le_refl 0, ?_⟩, fun k ht => ?_⟩
  · simp [new]
  · cases ht
  · rw [he, he]
    omega
  · rw [he, he]
    omega
  · rw [he, he, he, he]
    omega
  · rw [he, he]
    exact fun hl => absurd hl (by decide)
  · rw [hs]
    show 0 ≤ c
    omega
  · cases ht

variable [DecidableEq K]

theorem Valid.step {a : ARC K V} {values : K → Option V} (h : a.Valid values) (op : Op K V) :
    ∃ a', a.step op = some a' ∧ a'.Valid (latest [op] values) ∧ a'.c = a.c := by
  cases op with
  | set key value => exact h.setWithExpire key value 0
  | setWithExpire key value expires => exact h.setWithExpire key value expires
  | get key | getWithExpire key =>
    obtain ⟨a', _, hd, hv, c, _⟩ := h.get key
    exact ⟨a', by simp only [ARC.step, hd, Option.map_some], hv, c⟩

theorem Valid.run {a : ARC K V} {values : K → Option V} (h : a.Valid values) (ops : List (Op K V)) :
    ∃ a', a.run ops = some a' ∧ a'.Valid (latest ops values) ∧ a'.c = a.c := by
  induction ops generalizing a values with
  | nil => exact ⟨a, rfl, h, rfl⟩
  | cons op _ ih =>
    obtain ⟨_, hd, hv, c⟩ := h.step op
    obtain ⟨a', hr, hv', c'⟩ := ih hv
    refine ⟨a', by simp only [ARC.run, hd, Option.bind_some, hr], ?_, c'.trans c⟩
    cases op <;> exact hv'

end ARC

/-- Every sequence of calls succeeds; the lists are disjoint and have the keys of the map, their sizes are
bounded, a `Get` hits what is in the map and no ghost, and a hit has the value that was set last. -/
theorem arc_invariants {K V : Type} [DecidableEq K] [Inhabited V] {c : Int} (positive : 1 ≤ c) (ops : List (Op K V)) :
    ∃ a, (ARC.new c : ARC K V).run ops = some a ∧
      (∀ list, (a.lists list).Nodup) ∧ (∀ list list' k, k ∈ a.lists list → k ∈ a.lists list' → list = list') ∧
      (∀ k, a.cache k = true ↔ ∃ list, k ∈ a.lists list) ∧
      a.count .t1 + a.count .t2 ≤ c ∧ a.count .t1 + a.count .b1 ≤ c ∧
      a.count .t1 + a.count .t2 + a.count .b1 + a.count .b2 ≤ 2 * c ∧
      (0 < a.count .b1 + a.count .b2 → a.count .t1 + a.count .t2 = c) ∧ 0 ≤ a.p ∧ a.p ≤ c ∧
      ∀ key, ∃ a' result, a.get key = some (a', result) ∧
        (result.isSome = true ↔ a.cache key = true ∧ (a.entry key).ghost = false) ∧
        ∀ value expires, result = some (value, expires) → latest ops (fun _ => none) key = some value := by
  obtain ⟨a, hd, hv, same⟩ := (ARC.new_valid positive : (ARC.new c : ARC K V).Valid _).run ops
  have eq : a.c = c := same
  have hs := hv.sized
  refine ⟨a, hd, hv.linked.nodup, fun list list' k hh ht => ?_, fun k => ⟨fun hc => ?_, fun ⟨list, mem⟩ => ?_⟩, eq ▸ hs.cached,
    eq ▸ hs.recent, eq ▸ hs.total, eq ▸ hs.ghosts, hs.target.1, eq ▸ hs.target.2, fun key => ?_⟩
  · have hf := ((hv.linked.mem list k).mp hh).2
    have hse := ((hv.linked.mem list' k).mp ht).2
    exact Option.some.inj (hf.symm.trans hse)
  · obtain ⟨list, own⟩ := hv.linked.placed k hc
    exact ⟨list, (hv.linked.mem list k).mpr ⟨hc, own⟩⟩
  · exact ((hv.linked.mem list k).mp mem).1
  · obtain ⟨a', result, got, _, _, hit⟩ := hv.get key
    exact ⟨a', result, got, hit⟩

/-- A cache of one entry, with a key that has become a ghost: the `Get` of it misses, and that of the other key hits. -/
theorem arc_invariants_sample :
    (1 : Int) ≤ 1 ∧ ∃ a, (ARC.new 1 : ARC Nat Nat).run [.set 0 7, .get 0, .set 1 8] = some a ∧ a.lists .b2 = [0] ∧
      a.count .t1 + a.count .t2 + a.count .b1 + a.count .b2 ≤ 2 * 1 ∧
      (∃ a', a.get 0 = some (a', none)) ∧ ∃ a' expires, a.get 1 = some (a', some (8, expires)) := by
  obtain ⟨a, hd, _, _, _, _, _, ht, _, _, _, gets⟩ := @arc_invariants Nat Nat _ _ 1 (by decide) [.set 0 7, .get 0, .set 1 8]
  obtain ⟨a₀, result₀, get₀, hit₀, _⟩ := gets 0
  obtain ⟨a₁, result₁, get₁, hit₁, value₁⟩ := gets 1
  refine ⟨by decide, a, hd, ?_, ht, ⟨a₀, ?_⟩, a₁, ?_⟩
  · cases hd
    decide
  · have ghost : ¬(a.cache 0 = true ∧ (a.entry 0).ghost = false) := by
      cases hd
      decide
    rw [get₀, Option.not_isSome_iff_eq_none.mp (hit₀.not.mpr ghost)]
  · have live : a.cache 1 = true ∧ (a.entry 1).ghost = false := by
      cases hd
      decide
    obtain ⟨⟨v, expires⟩, rfl⟩ := Option.isSome_iff_exists.mp (hit₁.mpr live)
    have eight : v = 8 := by simpa [latest] using (value₁ v expires rfl).symm
    exact ⟨expires, by rw [get₁, eight]⟩

end AsterCore.Arc
