import AsterCore.DirectPublish

namespace AsterCore.KernelDirect

structure Controller.Changed (c c' : Controller) : Prop where
  inv : Inv c'
  closed : c'.closed = c.closed
  flushSeq : c'.flushSeq = c.flushSeq
  sets : (c'.generation = c.generation ∧ c'.lastDirect = c.lastDirect ∧ c'.lastProxy = c.lastProxy) ∨
    c'.generation = c.generation + 1
  backed : c'.generation ≠ c.generation →
    ∀ addr, addr ∈ c'.lastDirect ∨ addr ∈ c'.lastProxy → ∃ host r, c'.stored addr host = some r

def Controller.Traced (calls : List Nat) (c c' : Controller) : Prop :=
  ∀ addr host r, c'.stored addr host = some r → (∃ old, c.stored addr host = some old ∧ old.call = r.call) ∨ r.call ∈ calls

namespace Controller

variable {c c' c'' : Controller} {calls : List Nat}

theorem Traced.refl (c : Controller) : Traced calls c c := fun _ _ r ht => .inl ⟨r, ht, rfl⟩

theorem Traced.trans (hf : Traced calls c c') (hs : Traced calls c' c'') : Traced calls c c'' := by
  intro addr host r ht
  obtain ⟨old, ht, same⟩ | new := hs addr host r ht
  · rw [← same]
    exact hf addr host old ht
  · exact .inr new

theorem Traced.mono {more : List Nat} (h : Traced calls c c') (sub : ∀ call ∈ calls, call ∈ more) : Traced more c c' :=
  fun addr host r ht => (h addr host r ht).imp_right (sub r.call)

theorem traced_of_stored (h : c'.stored = c.stored) : Traced calls c c' := by
  intro _ _ r ht
  rw [h] at ht
  exact .inl ⟨r, ht, rfl⟩

variable {now : Int}

theorem Expired.traced (h : Expired now c c') : Traced calls c c' := by
  intro _ _ r ht
  rw [h.stored_eq] at ht
  exact .inl ⟨r, (Option.filter_eq_some_iff.mp ht).1, rfl⟩

theorem Expired.fixed (h : Expired now c c') : Fixed c c' := by
  have hf := h.frame.fixed
  exact ⟨hf.maxEntries, hf.maxRecords, hf.lastDirect, hf.lastProxy, hf.generation, hf.flushSeq, hf.closed⟩

theorem insertItem_traced (inv : Inv c) (orders : ItemOrders) (host : String) (now : Int) (dirty : Bool) (item : Classified) :
    Traced [item.call] c (insertItem orders host now (c, dirty) item).1 := by
  by_cases hv : now < item.expires
  · obtain ⟨_, hk, hi⟩ := insertItem_spec inv orders host dirty hv
    intro addr _ r ht
    by_cases hh : addr = item.addr
    · subst hh
      obtain hb | ⟨_, rfl⟩ := hi.origin ht
      · exact .inl ⟨r, hb, rfl⟩
      · exact .inr List.mem_cons_self
    · obtain hs | ⟨_, hg⟩ := hk.others addr hh
      · rw [hs] at ht
        exact .inl ⟨r, ht, rfl⟩
      · rw [hg] at ht
        cases ht
  · have skip : insertItem orders host now (c, dirty) item = (c, dirty) := if_pos (by omega)
    rw [skip]
    exact .refl c

theorem insertItem_fixed (inv : Inv c) (orders : ItemOrders) (host : String) (now : Int) (dirty : Bool) (item : Classified) :
    Inv (insertItem orders host now (c, dirty) item).1 ∧ Fixed c (insertItem orders host now (c, dirty) item).1 := by
  by_cases hv : now < item.expires
  · obtain ⟨inv', hk, _⟩ := insertItem_spec inv orders host dirty hv
    exact ⟨inv', hk.fixed⟩
  · have hs : insertItem orders host now (c, dirty) item = (c, dirty) := if_pos (by omega)
    rw [hs]
    exact ⟨inv, .refl c⟩

theorem insertItems_traced (orders : Orders) (host : String) (now : Int) (items : List Classified) (i : Nat) (dirty : Bool)
    (inv : Inv c) : Traced (items.map Classified.call) c (insertItems orders host now i items (c, dirty)).1 ∧
      Fixed c (insertItems orders host now i items (c, dirty)).1 := by
  induction items generalizing c i dirty with
  | nil => exact ⟨.refl c, .refl c⟩
  | cons item _ ih =>
    obtain ⟨inv', hf⟩ := insertItem_fixed inv (orders.item i) host now dirty item
    have hfi := insertItem_traced inv (orders.item i) host now dirty item
    obtain ⟨hr, hfr⟩ := ih (i + 1) (insertItem (orders.item i) host now (c, dirty) item).2 inv'
    refine ⟨?_, hf.trans hfr⟩
    refine (hfi.mono ?_).trans (hr.mono fun call mem => List.mem_cons_of_mem _ mem)
    intro _ mem
    rw [List.mem_singleton.mp mem]
    exact List.mem_cons_self

theorem changed_of_fixed (inv : Inv c') (hf : Fixed c c') : Changed c c' :=
  ⟨inv, hf.closed, hf.flushSeq, .inl ⟨hf.generation, hf.lastDirect, hf.lastProxy⟩,
    fun ho => absurd hf.generation ho⟩

theorem Changed.of_fixed (hf : Fixed c c') (h : Changed c' c'') : Changed c c'' := by
  refine ⟨h.inv, h.closed.trans hf.closed, h.flushSeq.trans hf.flushSeq, ?_, ?_⟩
  · rw [← hf.generation, ← hf.lastDirect, ← hf.lastProxy]
    exact h.sets
  · rw [← hf.generation]
    exact h.backed

structure Built (c : Controller) (sets : DecisionSets) (generation : Nat) : Prop where
  generation_eq : generation = c.generation
  direct_eq : sets.direct = c.lastDirect
  proxy_eq : sets.proxy = c.lastProxy
  backed : ∀ addr, addr ∈ sets.direct ∨ addr ∈ sets.proxy → ∃ host r, c.stored addr host = some r

theorem mem_buildSets (inv : Inv c) (orders : Orders) {addr : Addr}
    (mem : addr ∈ (c.buildSetsLocked orders).direct ∨ addr ∈ (c.buildSetsLocked orders).proxy) :
    ∃ host r, c.stored addr host = some r := by
  simp only [buildSetsLocked, List.mem_toFinset, List.mem_map, List.mem_filter] at mem
  have he : ∃ ref, c.records.lookup addr = some ref := by
    obtain ⟨e, ⟨he, _⟩, rfl⟩ | ⟨e, ⟨he, _⟩, rfl⟩ := mem
    · exact ⟨e.2, GoMap.mem_entries_iff.mp he⟩
    · exact ⟨e.2, GoMap.mem_entries_iff.mp he⟩
  obtain ⟨ref, hh⟩ := he
  have hv := inv.table.valid addr ref hh
  obtain ⟨e, mem⟩ := List.exists_mem_of_ne_nil _ (forEach_ne_nil hv (orders.address addr) (inv.filled addr ref hh))
  refine ⟨e.1, e.2, ?_⟩
  rw [stored_of_lookup hh]
  exact (AddressRecords.mem_forEach _ hv).mp mem

theorem changedSetsLocked_spec (inv : Inv c) (orders : Orders) {sets : DecisionSets} {generation : Nat} {changed : Bool}
    (eq : c.changedSetsLocked orders = (c', sets, generation, changed)) :
    Changed c c' ∧ c'.stored = c.stored ∧ (changed = true → Built c' sets generation) := by
  have inv' := changedSetsLocked_inv orders inv
  have ht := (changedSetsLocked_sameTable orders c).stored_eq
  rw [eq] at inv' ht
  unfold changedSetsLocked at eq
  simp only at eq
  split at eq <;> cases eq
  · exact ⟨changed_of_fixed inv (.refl c), rfl, fun h => by cases h⟩
  · have hb : ∀ addr, addr ∈ (c.buildSetsLocked orders).direct ∨ addr ∈ (c.buildSetsLocked orders).proxy →
        ∃ host r, c.stored addr host = some r := fun addr mem => mem_buildSets inv orders mem
    exact ⟨⟨inv', rfl, rfl, .inr rfl, fun _ => hb⟩, ht, fun _ => ⟨rfl, rfl, rfl, hb⟩⟩

theorem insertLocked_spec (inv : Inv c) (live : c.closed = false) {orders : Orders} {flushSeq : Nat} {host : String}
    {items : List Classified} {result : Option (DecisionSets × Nat × Bool)}
    (eq : c.insertLocked orders flushSeq host items now = (c', result)) :
    Changed c c' ∧ (flushSeq = c.flushSeq ∨ c' = c) ∧ Traced (items.map Classified.call) c c' ∧
      ∀ sets generation, result = some (sets, generation, true) → Built c' sets generation := by
  unfold insertLocked at eq
  simp only [live, Bool.false_eq_true, false_or] at eq
  split at eq
  · cases eq
    exact ⟨changed_of_fixed inv (.refl c), .inr rfl, .refl c, nofun⟩
  next same =>
    have expired := removeExpiredLocked_spec inv orders now
    have fixed₀ : Fixed c (c.removeExpiredLocked orders now).1 := expired.fixed
    have inv₁ := insertItems_inv orders host now items 0 (c.removeExpiredLocked orders now).2 expired.inv
    obtain ⟨traced, fixed⟩ := insertItems_traced orders host now items 0 (c.removeExpiredLocked orders now).2 expired.inv
    have whole := expired.traced.trans traced
    have now_eq : flushSeq = c.flushSeq := (not_not.mp same).symm
    split at eq
    · generalize published : changedSetsLocked orders
        (insertItems orders host now 0 items (c.removeExpiredLocked orders now)).1 = r at eq
      obtain ⟨_, _, _, _⟩ := r
      cases eq
      obtain ⟨step, table, built⟩ := changedSetsLocked_spec inv₁ orders published
      refine ⟨step.of_fixed (fixed₀.trans fixed), .inl now_eq, whole.trans (traced_of_stored table), ?_⟩
      rintro _ _ ⟨⟩
      exact built rfl
    · cases eq
      exact ⟨changed_of_fixed inv₁ (fixed₀.trans fixed), .inl now_eq, whole, nofun⟩

theorem tickLocked_spec (inv : Inv c) (live : c.closed = false) {orders : Orders} {result : Option (DecisionSets × Nat)}
    (eq : c.tickLocked orders now = (c', result)) :
    Changed c c' ∧ Traced [] c c' ∧ ∀ sets generation, result = some (sets, generation) → Built c' sets generation := by
  have expired := removeExpiredLocked_spec inv orders now
  have hf : Fixed c (c.removeExpiredLocked orders now).1 := expired.fixed
  unfold tickLocked at eq
  simp only [live, Bool.false_eq_true, if_false] at eq
  split at eq
  · generalize published : changedSetsLocked orders (c.removeExpiredLocked orders now).1 = r at eq
    cases eq
    obtain ⟨step, table, built⟩ := changedSetsLocked_spec expired.inv orders published
    refine ⟨step.of_fixed hf, expired.traced.trans (traced_of_stored table), ?_⟩
    intro _ _ found
    split at found <;> cases found
    next changed => exact built changed
  · cases eq
    exact ⟨changed_of_fixed expired.inv hf, expired.traced, nofun⟩

theorem refreshItem_traced (inv : Inv c) (host : String) (item : Addr × Int) :
    Traced [] c (refreshItem host c item) ∧ Fixed c (refreshItem host c item) := by
  cases ht : c.stored item.1 host with
  | none =>
    have hs : refreshItem host c item = c := by
      unfold refreshItem
      split
      · rfl
      next hh =>
        unfold stored at ht
        rw [hh, Option.bind_some] at ht
        simp only [ht]
    rw [hs]
    exact ⟨.refl c, .refl c⟩
  | some prev =>
    obtain ⟨_, hk, ho, hw⟩ := refreshItem_spec inv item ht
    refine ⟨?_, hk.fixed⟩
    intro addr _ r hf
    by_cases hh : addr = item.1
    · subst hh
      rw [hw, Function.update_apply] at hf
      split at hf
      next hs =>
        subst hs
        cases hf
        exact .inl ⟨prev, ht, rfl⟩
      · exact .inl ⟨r, hf, rfl⟩
    · rw [ho addr hh] at hf
      exact .inl ⟨r, hf, rfl⟩

theorem refreshItems_traced (host : String) (items : List (Addr × Int)) (inv : Inv c) :
    Inv (items.foldl (refreshItem host) c) ∧ Traced [] c (items.foldl (refreshItem host) c) ∧
      Fixed c (items.foldl (refreshItem host) c) := by
  induction items generalizing c with
  | nil => exact ⟨inv, .refl c, .refl c⟩
  | cons item _ ih =>
    obtain ⟨ht, hf⟩ := refreshItem_traced inv host item
    obtain ⟨inv', htr, hfr⟩ := ih (refreshItem_inv host item inv)
    exact ⟨inv', ht.trans htr, hf.trans hfr⟩

theorem refreshExistingLocked_spec (inv : Inv c) (hl : c.closed = false) {isFakeIP : Addr → Bool} {host : String}
    {answers : List DNSAnswer} {handled : Bool}
    (eq : c.refreshExistingLocked isFakeIP host answers now = (c', handled)) : Changed c c' ∧ Traced [] c c' := by
  obtain hs | ⟨loop, _⟩ := refreshExistingLocked_cases hl isFakeIP host answers now
  · rw [hs] at eq
    cases eq
    exact ⟨changed_of_fixed inv (.refl c), .refl c⟩
  · rw [loop] at eq
    cases eq
    obtain ⟨inv', ht, hf⟩ := refreshItems_traced host (refreshed isFakeIP now answers) inv
    exact ⟨changed_of_fixed inv' hf, ht⟩

theorem flushLocked_spec (inv : Inv c) (hl : c.closed = false) {result : Option (Nat × Bool)}
    (eq : c.flushLocked = (c', result)) :
    Inv c' ∧ c'.closed = false ∧ c'.flushSeq = c.flushSeq ∧ (∀ addr host, c'.stored addr host = none) ∧
      c'.lastDirect = ∅ ∧ c'.lastProxy = ∅ ∧
      ((result = some (c.generation, false) ∧ c'.generation = c.generation ∧ c.lastDirect = ∅ ∧ c.lastProxy = ∅) ∨
        (result = some (c.generation + 1, true) ∧ c'.generation = c.generation + 1)) := by
  have inv' := flushLocked_inv inv
  rw [eq] at inv'
  unfold flushLocked at eq
  simp only [hl, Bool.false_eq_true] at eq
  cases eq
  refine ⟨inv', rfl, rfl, fun _ _ => rfl, rfl, rfl, ?_⟩
  by_cases hc : c.lastDirect ≠ ∅ ∨ c.lastProxy ≠ ∅
  · exact .inr (by simp [hc])
  · obtain ⟨hd, hp⟩ := not_or.mp hc
    exact .inl (by simp [not_not.mp hd, not_not.mp hp])

end Controller

def Current (c : Controller) (req : PublishRequest) : Prop :=
  req.generation ≤ c.generation ∧ (req.generation = c.generation → req.sets.direct = c.lastDirect ∧ req.sets.proxy = c.lastProxy)

def FreshSince (time : Nat) (req : PublishRequest) : Prop :=
  ∀ addr, addr ∈ req.sets.direct ∨ addr ∈ req.sets.proxy → ∀ host r, req.table addr host = some r → time ≤ r.call

structure Sound (c : Controller) (cleared : List Cleared) (req : PublishRequest) : Prop where
  current : Current c req
  backed : ∀ addr, addr ∈ req.sets.direct ∨ addr ∈ req.sets.proxy → ∃ host r, req.table addr host = some r
  fresh : ∀ f ∈ cleared, f.generation ≤ req.generation → FreshSince f.time req

def PublishLoop.request : PublishLoop → Option PublishRequest
  | .idle => none
  | .received req | .sinking req | .finishing req => some req

def PublishLoop.decided : PublishLoop → Option PublishRequest
  | .sinking req | .finishing req => some req
  | _ => none

structure MemoryInv (s : Memory) : Prop where
  inv : Inv s.controller
  live : s.controller.closed = false
  applied_le : s.applied ≤ s.controller.generation
  begun : ∀ f ∈ s.begun, f.flushSeq ≤ s.controller.flushSeq ∧ f.time ≤ s.time
  cleared : ∀ f ∈ s.cleared, f.toBegan ∈ s.begun
  records : ∀ f ∈ s.cleared, ∀ addr host r, s.controller.stored addr host = some r → f.time ≤ r.call
  loop : ∀ req, s.loop.request = some req → Sound s.controller s.cleared req
  decided : ∀ req, s.loop.decided = some req → s.applied ≤ req.generation
  finishing : ∀ req, s.loop = .finishing req → ∃ e, s.sinkCalls.getLast? = some e ∧ e.request = req
  sinkCalls : ∀ e ∈ s.sinkCalls, Sound s.controller s.cleared e.request ∧ e.time < s.time
  last : ∀ e, s.sinkCalls.getLast? = some e → s.applied ≤ e.request.generation
  appliedRequest : ∀ req, s.appliedRequest = some req → Sound s.controller s.cleared req ∧ req.generation = s.applied

def Caller.Waits (s : Memory) (generation : Nat) : Caller → Prop
  | .flush f => f ∈ s.cleared ∧ f.generation = generation
  | _ => True

structure Settled (s : Memory) (f : Cleared) (ended : Nat) : Prop where
  mem : f ∈ s.cleared
  applied : f.generation ≤ s.applied
  later : ∀ e ∈ s.sinkCalls, ended ≤ e.time → f.generation ≤ e.request.generation

def CallInv (s : Memory) : Call → Prop
  | .classify _ flushSeq _ items | .insert _ flushSeq items =>
    flushSeq ≤ s.controller.flushSeq ∧ ∀ f ∈ s.begun, f.flushSeq ≤ flushSeq → ∀ item ∈ items, f.time ≤ item.call
  | .clear f => f ∈ s.begun
  | .publish caller req | .send caller req => Sound s.controller s.cleared req ∧ caller.Waits s req.generation
  | .waitDone caller req => caller.Waits s req.generation
  | .waitApplied caller generation => caller.Waits s generation
  | .returned (.flush f) ended => Settled s f ended
  | _ => True

structure Grows (s s' : Memory) : Prop where
  flushSeq : s.controller.flushSeq ≤ s'.controller.flushSeq
  begun : ∀ f ∈ s.begun, f ∈ s'.begun
  begunNew : ∀ f ∈ s'.begun, f ∈ s.begun ∨ s.controller.flushSeq < f.flushSeq
  cleared : ∀ f ∈ s.cleared, f ∈ s'.cleared
  sound : ∀ req, Sound s.controller s.cleared req → Sound s'.controller s'.cleared req
  applied : s.applied ≤ s'.applied
  sinkCalls : ∀ e ∈ s'.sinkCalls, e ∈ s.sinkCalls ∨ s.applied ≤ e.request.generation

variable {s s' : Memory}

theorem Caller.Waits.grows (hg : Grows s s') {generation : Nat} {caller : Caller}
    (h : caller.Waits s generation) : caller.Waits s' generation := by
  cases caller with
  | flush f => exact ⟨hg.cleared f h.1, h.2⟩
  | observe | tick => trivial

theorem CallInv.grows (hg : Grows s s') {t : Call} (h : CallInv s t) : CallInv s' t := by
  have items : ∀ {flushSeq : Nat} {items : List Classified},
      (flushSeq ≤ s.controller.flushSeq ∧ ∀ f ∈ s.begun, f.flushSeq ≤ flushSeq → ∀ item ∈ items, f.time ≤ item.call) →
      flushSeq ≤ s'.controller.flushSeq ∧ ∀ f ∈ s'.begun, f.flushSeq ≤ flushSeq → ∀ item ∈ items, f.time ≤ item.call := by
    rintro _ _ ⟨le, old⟩
    refine ⟨le.trans hg.flushSeq, fun f mem seq => ?_⟩
    obtain hb | _ := hg.begunNew f mem
    · exact old f hb seq
    · omega
  cases t with
  | classify o flushSeq answers list | insert o flushSeq list => exact items h
  | clear f => exact hg.begun f h
  | publish caller req | send caller req => exact ⟨hg.sound req h.1, h.2.grows hg⟩
  | waitDone caller req | waitApplied caller generation => exact Caller.Waits.grows hg h
  | returned caller ended =>
    cases caller with
    | flush f =>
      obtain ⟨mem, ha, hl⟩ : Settled s f ended := h
      refine ⟨hg.cleared f mem, ha.trans hg.applied, fun e ht time => ?_⟩
      obtain hb | new := hg.sinkCalls e ht
      · exact hl e hb time
      · exact ha.trans new
    | observe | tick => trivial
  | refresh o | load o | tick orders now | flush => trivial

theorem Current.changed {c c' : Controller} {req : PublishRequest} (h : Current c req)
    (sets : (c'.generation = c.generation ∧ c'.lastDirect = c.lastDirect ∧ c'.lastProxy = c.lastProxy) ∨
      c'.generation = c.generation + 1) : Current c' req := by
  obtain ⟨le, hs⟩ := h
  obtain ⟨hg, hd, hp⟩ | generation := sets
  · unfold Current
    rw [hg, hd, hp]
    exact ⟨le, hs⟩
  · exact ⟨by omega, fun eq => by omega⟩

section Steps

variable {s : Memory}

variable {c : Controller}

section

variable (h : MemoryInv s)

include h

theorem memory_step {begun : List Began} {cleared : List Cleared} (inv : Inv c) (hl : c.closed = false)
    (sets : (c.generation = s.controller.generation ∧ c.lastDirect = s.controller.lastDirect ∧
      c.lastProxy = s.controller.lastProxy) ∨ c.generation = s.controller.generation + 1) (hf : s.controller.flushSeq ≤ c.flushSeq)
    (hb : ∀ f ∈ begun, f ∈ s.begun ∨ s.controller.flushSeq < f.flushSeq ∧ f.flushSeq ≤ c.flushSeq ∧ f.time ≤ s.time)
    (hbo : ∀ f ∈ s.begun, f ∈ begun) (hc : ∀ f ∈ cleared, f.toBegan ∈ begun) (hco : ∀ f ∈ s.cleared, f ∈ cleared)
    (hr : ∀ f ∈ cleared, ∀ addr host r, c.stored addr host = some r → f.time ≤ r.call)
    (hs : ∀ req, Sound s.controller s.cleared req → Sound c cleared req) :
    let s' : Memory := { s with controller := c, begun := begun, cleared := cleared }
    MemoryInv s'.tick ∧ Grows s s'.tick := by
  have hg : s.controller.generation ≤ c.generation := by obtain ⟨same, _⟩ | _ := sets <;> omega
  constructor
  · refine ⟨inv, hl, h.applied_le.trans hg, ?_, hc, hr, fun req ht => hs req (h.loop req ht), h.decided, h.finishing,
      ?_, h.last, ?_⟩
    · intro f mem
      obtain old | ⟨_, seq, time⟩ := hb f mem
      · obtain ⟨seq, time⟩ := h.begun f old
        exact ⟨seq.trans hf, time.trans (Nat.le_succ _)⟩
      · exact ⟨seq, time.trans (Nat.le_succ _)⟩
    · intro e mem
      obtain ⟨old, time⟩ := h.sinkCalls e mem
      exact ⟨hs _ old, time.trans (Nat.lt_succ_self _)⟩
    · intro req ht
      obtain ⟨old, eq⟩ := h.appliedRequest req ht
      exact ⟨hs _ old, eq⟩
  · exact ⟨hf, hbo, fun f mem => (hb f mem).imp_right And.left, hco, hs, le_refl _, fun _ mem => .inl mem⟩

theorem table_step (hc : s.controller.Changed c)
    (hf : ∀ f ∈ s.cleared, ∀ addr host r, c.stored addr host = some r → f.time ≤ r.call) :
    MemoryInv ({ s with controller := c } : Memory).tick ∧ Grows s ({ s with controller := c } : Memory).tick :=
  memory_step h hc.inv (hc.closed.trans h.live) hc.sets hc.flushSeq.ge (fun _ mem => .inl mem) (fun _ mem => mem)
    h.cleared (fun _ mem => mem) hf (fun _ old => ⟨old.current.changed hc.sets, old.backed, old.fresh⟩)

theorem quiet_step : MemoryInv s.tick ∧ Grows s s.tick :=
  table_step h (Controller.changed_of_fixed h.inv (.refl _)) h.records

theorem MemoryInv.traced {calls : List Nat} (ht : s.controller.Traced calls c)
    (new : ∀ f ∈ s.cleared, ∀ call ∈ calls, f.time ≤ call) :
    ∀ f ∈ s.cleared, ∀ addr host r, c.stored addr host = some r → f.time ≤ r.call := by
  intro f mem addr host r hth
  obtain ⟨old, hb, hs⟩ | call := ht addr host r hth
  · rw [← hs]
    exact h.records f mem addr host old hb
  · exact new f mem r.call call

theorem sound_built {sets : DecisionSets} {generation : Nat} (hb : s.controller.Built sets generation)
    (done : Nat) : Sound s.controller s.cleared ⟨sets, generation, done, s.controller.stored⟩ := by
  refine ⟨⟨hb.generation_eq.le, fun _ => ⟨hb.direct_eq, hb.proxy_eq⟩⟩, hb.backed, ?_⟩
  intro f mem _ addr _ host r ht
  exact h.records f mem addr host r ht

theorem flush_step :
    let s' : Memory := { s with
      controller := { s.controller with flushSeq := s.controller.flushSeq + 1 }
      begun := ⟨s.time, s.controller.flushSeq + 1⟩ :: s.begun }
    MemoryInv s'.tick ∧ Grows s s'.tick := by
  refine memory_step h (Controller.Inv.frame h.inv rfl rfl rfl rfl rfl rfl rfl rfl rfl) h.live (.inl ⟨rfl, rfl, rfl⟩) (Nat.le_succ _) ?_
    (fun f mem => List.mem_cons_of_mem _ mem) (fun f mem => List.mem_cons_of_mem _ (h.cleared f mem)) (fun _ mem => mem) h.records
    (fun req old => ⟨old.current, old.backed, old.fresh⟩)
  intro f mem
  obtain rfl | mem := List.mem_cons.mp mem
  · exact .inr ⟨Nat.lt_succ_self _, le_refl _, le_refl _⟩
  · exact .inl mem

theorem clear_step {f : Began} (hb : f ∈ s.begun) {generation : Nat} {changed : Bool}
    (eq : s.controller.flushLocked = (c, some (generation, changed))) :
    let s' : Memory := { s with controller := c, cleared := ⟨f, generation⟩ :: s.cleared }
    MemoryInv s'.tick ∧ Grows s s'.tick ∧ Sound s'.controller s'.cleared ⟨⟨∅, ∅⟩, generation, s.time, c.stored⟩ := by
  intro s'
  obtain ⟨inv, hl, hfs, he, hd, hp, cases⟩ := Controller.flushLocked_spec h.inv h.live eq
  have sets : (c.generation = s.controller.generation ∧ c.lastDirect = s.controller.lastDirect ∧
      c.lastProxy = s.controller.lastProxy) ∨ c.generation = s.controller.generation + 1 := by
    obtain ⟨_, same, hnd, hnp⟩ | ⟨_, hm⟩ := cases
    · exact .inl ⟨same, hd.trans hnd.symm, hp.trans hnp.symm⟩
    · exact .inr hm
  have hg_eq : generation = c.generation := by
    obtain ⟨hr, same, _⟩ | ⟨hr, hm⟩ := cases
    · cases hr
      exact same.symm
    · cases hr
      exact hm.symm
  have hs : ∀ req, Sound s.controller s.cleared req → Sound s'.controller s'.cleared req := by
    intro req old
    refine ⟨old.current.changed sets, old.backed, fun g mem le => ?_⟩
    obtain rfl | mem := List.mem_cons.mp mem
    · -- a request as new as the flush is one of the generation whose sets were empty before
      intro addr ht
      have hc := old.current.changed sets
      have same := le_antisymm hc.1 (hg_eq ▸ le)
      rw [(hc.2 same).1, (hc.2 same).2, hd, hp] at ht
      rcases ht with ht | ht <;> exact absurd ht (Finset.notMem_empty addr)
    · exact old.fresh g mem le
  have hno : ∀ addr, ¬ (addr ∈ (∅ : Finset Addr) ∨ addr ∈ (∅ : Finset Addr)) := by simp
  obtain ⟨hm, hgr⟩ := @memory_step s c h s.begun (⟨f, generation⟩ :: s.cleared) inv hl sets hfs.ge
    (fun _ mem => .inl mem) (fun _ mem => mem) (List.forall_mem_cons.mpr ⟨hb, h.cleared⟩)
    (fun g mem => List.mem_cons_of_mem _ mem) (fun g _ addr host r ht => by simp [he addr host] at ht) hs
  exact ⟨hm, hgr, ⟨hg_eq.le, fun _ => ⟨hd.symm, hp.symm⟩⟩, fun addr ht => absurd ht (hno addr),
    fun _ _ _ addr ht => absurd ht (hno addr)⟩

theorem send_step {req : PublishRequest} (hs : Sound s.controller s.cleared req) :
    MemoryInv ({ s with loop := .received req } : Memory).tick ∧ Grows s ({ s with loop := .received req } : Memory).tick := by
  obtain ⟨hm, hg⟩ := quiet_step h
  refine ⟨{ hm with loop := ?_, decided := ?_, finishing := ?_ }, { hg with }⟩
  · rintro _ ⟨⟩
    exact hs
  · rintro _ ⟨⟩
  · rintro _ ⟨⟩

theorem idle_step (closedDone : List Nat) : MemoryInv ({ s with loop := .idle, closedDone := closedDone } : Memory).tick ∧
      Grows s ({ s with loop := .idle, closedDone := closedDone } : Memory).tick := by
  obtain ⟨hm, hg⟩ := quiet_step h
  refine ⟨{ hm with loop := ?_, decided := ?_, finishing := ?_ }, { hg with }⟩
  · rintro _ ⟨⟩
  · rintro _ ⟨⟩
  · rintro _ ⟨⟩

theorem loop_step : MemoryInv (loopStep s).tick ∧ Grows s (loopStep s).tick := by
  obtain ⟨hm, hg⟩ := quiet_step h
  unfold loopStep
  split
  · exact ⟨hm, hg⟩
  next req hl =>
    have hs := h.loop req (by rw [hl]; rfl)
    split
    next hc =>
      refine ⟨{ hm with loop := ?_, decided := ?_, finishing := ?_ }, { hg with }⟩
      · rintro _ ⟨⟩
        exact hs
      · rintro _ ⟨⟩
        exact h.applied_le.trans hc.2.ge
      · rintro _ ⟨⟩
    · exact idle_step h _
  next req hl =>
    have hs := h.loop req (by rw [hl]; rfl)
    have hn := h.decided req (by rw [hl]; rfl)
    refine ⟨{ hm with loop := ?_, decided := ?_, finishing := ?_, sinkCalls := ?_, last := ?_ }, { hg with sinkCalls := ?_ }⟩
    · rintro _ ⟨⟩
      exact hs
    · rintro _ ⟨⟩
      exact hn
    · rintro _ ⟨⟩
      exact ⟨_, List.getLast?_concat, rfl⟩
    · intro e mem
      obtain mem | mem := List.mem_append.mp mem
      · exact hm.sinkCalls e mem
      · rw [List.mem_singleton.mp mem]
        exact ⟨hs, Nat.lt_succ_self _⟩
    · intro e ht
      have own : e = ⟨s.time, req⟩ := Option.some.inj (ht.symm.trans List.getLast?_concat)
      rw [own]
      exact hn
    · intro e mem
      obtain mem | mem := List.mem_append.mp mem
      · exact .inl mem
      · rw [List.mem_singleton.mp mem]
        exact .inr hn
  next req hl =>
    have hs := h.loop req (by rw [hl]; rfl)
    have hn := h.decided req (by rw [hl]; rfl)
    obtain ⟨e, last, same⟩ := h.finishing req hl
    split
    next hc =>
      refine ⟨{ hm with
        loop := ?_, decided := ?_, finishing := ?_, applied_le := hc.2.le, last := ?_, appliedRequest := ?_ },
        { hg with applied := hn }⟩
      · rintro _ ⟨⟩
      · rintro _ ⟨⟩
      · rintro _ ⟨⟩
      · intro e' ht
        have own : e' = e := Option.some.inj (ht.symm.trans last)
        rw [own, same]
        exact le_refl _
      · rintro _ ⟨⟩
        exact ⟨hs, rfl⟩
    · exact idle_step h _

end

end Steps

theorem Next.spec {t t' : Call} (next : Next s t s' t') (h : MemoryInv s) (call : CallInv s t) :
    MemoryInv s'.tick ∧ Grows s s'.tick ∧ CallInv s'.tick t' := by
  obtain ⟨hm, hg⟩ := quiet_step h
  -- a step that leaves the memory as it is and a continuation that relies on nothing new
  have hta : ∀ {c : Controller} {calls : List Nat}, s.controller.Changed c → s.controller.Traced calls c →
      (∀ f ∈ s.cleared, ∀ call ∈ calls, f.time ≤ call) →
      MemoryInv ({ s with controller := c } : Memory).tick ∧ Grows s ({ s with controller := c } : Memory).tick :=
    fun changed ht new => table_step h changed (h.traced ht new)
  have hn : ∀ f ∈ s.cleared, ∀ call ∈ ([] : List Nat), f.time ≤ call := fun _ _ _ mem => absurd mem List.not_mem_nil
  have ha : ∀ {flushSeq : Nat} {items : List Classified}, flushSeq = s.controller.flushSeq →
      (∀ f ∈ s.begun, f.flushSeq ≤ flushSeq → ∀ item ∈ items, f.time ≤ item.call) →
      ∀ f ∈ s.cleared, ∀ call ∈ items.map Classified.call, f.time ≤ call := by
    intro _ _ now old f mem _ hth
    obtain ⟨item, hi, rfl⟩ := List.mem_map.mp hth
    have hbe := h.cleared f mem
    refine old f.toBegan hbe ?_ item hi
    rw [now]
    exact (h.begun f.toBegan hbe).1
  have inserted : ∀ {o : Observation} {flushSeq : Nat} {items : List Classified} {c : Controller}
      {result : Option (DecisionSets × Nat × Bool)}, CallInv s (.insert o flushSeq items) →
      s.controller.insertLocked o.orders flushSeq o.host items o.insertAt = (c, result) →
      (MemoryInv ({ s with controller := c } : Memory).tick ∧ Grows s ({ s with controller := c } : Memory).tick) ∧
        ∀ sets generation, result = some (sets, generation, true) → c.Built sets generation := by
    intro o _ _ c _ call eq
    obtain ⟨changed, now | same, ht, hb⟩ := Controller.insertLocked_spec h.inv h.live eq
    · exact ⟨hta changed ht (ha now call.2), hb⟩
    · subst same
      exact ⟨hta changed (.refl _) hn, hb⟩
  cases next with
  | refreshed o c eq | unknown o c eq =>
    obtain ⟨changed, ht⟩ := Controller.refreshExistingLocked_spec h.inv h.live eq
    obtain ⟨hm, hg⟩ := hta changed ht hn
    exact ⟨hm, hg, trivial⟩
  | closed _ closed =>
    rw [h.live] at closed
    cases closed
  | load => exact ⟨hm, hg, le_refl _, fun _ _ _ item mem => absurd mem List.not_mem_nil⟩
  | classify =>
    refine ⟨hm, hg, call.1, fun f mem seq item hth => ?_⟩
    obtain old | new := List.mem_append.mp hth
    · exact call.2 f mem seq item old
    · have time : item.call = s.time := by
        unfold classifyAnswer at new
        simp only at new
        split at new
        · cases new
        · rw [List.mem_singleton.mp new]
      rw [time]
      exact (h.begun f mem).2
  | classified => exact ⟨hm, hg, call⟩
  | refused o flushSeq items c eq | inserted o flushSeq items c sets generation eq =>
    obtain ⟨⟨hm, hg⟩, _⟩ := inserted call eq
    exact ⟨hm, hg, trivial⟩
  | changed _ _ _ _ sets generation eq =>
    obtain ⟨⟨hm, hg⟩, hb⟩ := inserted call eq
    exact ⟨hm, hg, sound_built hm (hb sets generation rfl) s.time, trivial⟩
  | ticked _ _ _ eq =>
    obtain ⟨changed, ht, _⟩ := Controller.tickLocked_spec h.inv h.live eq
    obtain ⟨hm, hg⟩ := hta changed ht hn
    exact ⟨hm, hg, trivial⟩
  | expired _ _ _ sets generation eq =>
    obtain ⟨changed, ht, hb⟩ := Controller.tickLocked_spec h.inv h.live eq
    obtain ⟨hm, hg⟩ := hta changed ht hn
    exact ⟨hm, hg, sound_built hm (hb sets generation rfl) s.time, trivial⟩
  | flush =>
    obtain ⟨hm, hg⟩ := flush_step h
    exact ⟨hm, hg, List.mem_cons_self⟩
  | uncleared _ _ eq =>
    unfold Controller.flushLocked at eq
    simp only [h.live, Bool.false_eq_true] at eq
    cases eq
  | cleared _ _ _ changed eq =>
    obtain ⟨hm, hg, hs⟩ := clear_step h call eq
    refine ⟨hm, hg, ?_⟩
    cases changed with
    | true => exact ⟨hs, List.mem_cons_self, rfl⟩
    | false => exact ⟨List.mem_cons_self, rfl⟩
  | outdated caller =>
    refine ⟨hm, hg, ?_⟩
    cases caller with
    | tick | observe => trivial
    | flush => exact call.2
  | publish => exact ⟨hm, hg, call⟩
  | sentTick =>
    obtain ⟨hm, hg⟩ := send_step h call.1
    exact ⟨hm, hg, trivial⟩
  | sent =>
    obtain ⟨hm, hg⟩ := send_step h call.1
    exact ⟨hm, hg, call.2⟩
  | waited => exact ⟨hm, hg, call⟩
  | returned caller _ hr =>
    refine ⟨hm, hg, ?_⟩
    cases caller with
    | observe | tick => trivial
    | flush =>
      obtain ⟨mem, rfl⟩ := call
      refine ⟨mem, hr, fun e hth later => ?_⟩
      have past := (h.sinkCalls e hth).2
      omega

open Program List

def assertions : Assertions Memory Call where
  memory s _ := MemoryInv s
  call s _ t := CallInv s t

theorem outline : Outline publishing (fun _ _ => True) assertions where
  entry := by
    intro w t hh _ _
    refine ⟨hh.1, ?_⟩
    cases t <;> trivial
  environment hh _ := by
    obtain ⟨hm, hg⟩ := loop_step hh.1
    exact ⟨hm, fun i t here => (hh.2 i t here).grows hg⟩
  own hh _ step := by
    obtain ⟨hm, _, hc⟩ := (next_of_nextStep step.next).spec hh.1 (hh.2 _ _ step.here)
    exact ⟨hm, hc⟩
  stable hh _ step ht _ _ := by
    obtain ⟨_, hg, _⟩ := (next_of_nextStep step.next).spec hh.1 (hh.2 _ _ step.here)
    exact (hh.2 _ _ ht).grows hg

theorem memoryInv_start {maxEntries : Nat} (hp : 0 < maxEntries) : MemoryInv (.start maxEntries) where
  inv := Controller.register_inv hp
  live := rfl
  applied_le := le_refl _
  begun := fun _ mem => absurd mem not_mem_nil
  cleared := fun _ mem => absurd mem not_mem_nil
  records := fun _ mem => absurd mem not_mem_nil
  loop := by rintro _ ⟨⟩
  decided := by rintro _ ⟨⟩
  finishing := by rintro _ ⟨⟩
  sinkCalls := fun _ mem => absurd mem not_mem_nil
  last := by rintro _ ⟨⟩
  appliedRequest := by rintro _ ⟨⟩

/-- The sets of a request say something only about addresses whose records were all made by calls of the classifier that
started at `time` or later. -/
def NothingBefore (time : Nat) (req : PublishRequest) : Prop :=
  ∀ addr, addr ∈ req.sets.direct ∨ addr ∈ req.sets.proxy →
    (∃ host r, req.table addr host = some r) ∧ ∀ host r, req.table addr host = some r → time ≤ r.call

/-- In every run: when a flush has returned, no later call of the sink, nor the last one before, nor the sets last applied
carry a decision from before the flush began. -/
theorem flush_nothing_stale {maxEntries : Nat} (positive : 0 < maxEntries) (events : List (AsterCore.Event Call Unit))
    {w : World Memory Call} (run : publishing.run ⟨.start maxEntries, []⟩ events = some w) {i : Nat} {f : Cleared} {ended : Nat}
    (returned : w.calls[i]? = some (.returned (.flush f) ended)) :
    (∀ e ∈ w.shared.sinkCalls, ended ≤ e.time → NothingBefore f.time e.request) ∧
      (∀ e, w.shared.sinkCalls.getLast? = some e → NothingBefore f.time e.request) ∧
      ∀ req, w.shared.appliedRequest = some req → NothingBefore f.time req := by
  have start : publishing.Exclusive ⟨.start maxEntries, []⟩ ∧ assertions.Holds ⟨.start maxEntries, []⟩ :=
    ⟨fun _ _ _ _ _ hh => (by cases hh), memoryInv_start positive, fun _ _ hh => (by cases hh)⟩
  obtain ⟨_, hm, calls⟩ := outline.run start (along_true _ _) run
  obtain ⟨mem, applied, later⟩ : Settled w.shared f ended := calls i _ returned
  have hn : ∀ {req : PublishRequest}, Sound w.shared.controller w.shared.cleared req → f.generation ≤ req.generation →
      NothingBefore f.time req := by
    intro _ hs le addr ht
    exact ⟨hs.backed addr ht, hs.fresh f mem le addr ht⟩
  refine ⟨fun e ht time => ?_, fun e last => ?_, fun req ht => ?_⟩
  · exact hn (hm.sinkCalls e ht).1 (later e ht time)
  · exact hn (hm.sinkCalls e (mem_of_getLast? last)).1 (applied.trans (hm.last e last))
  · obtain ⟨hs, eq⟩ := hm.appliedRequest req ht
    exact hn hs (applied.trans eq.ge)

def sampleObservation : Observation where
  host := "d"
  answers := [⟨sampleAddr, 100 * 1000000000⟩]
  orders := plainOrders
  isFakeIP := fun _ _ => false
  classifier := some fun _ _ _ => true
  refreshAt := 0
  observedAt := 0
  insertAt := 0

/-- An observation that is published, a flush, and another observation, one after the other. -/
def sampleEvents : List (AsterCore.Event Call Unit) :=
  List.flatten [[.call (.refresh sampleObservation)], List.replicate 7 (.step 0), List.replicate 3 (.environment ()),
    List.replicate 2 (.step 0), [.call .flush], List.replicate 4 (.step 1), List.replicate 3 (.environment ()),
    List.replicate 2 (.step 1), [.call (.refresh sampleObservation)], List.replicate 7 (.step 2), List.replicate 3 (.environment ())]

def Call.flushed : Call → Option (Cleared × Nat)
  | .returned (.flush f) ended => some (f, ended)
  | _ => none

theorem flush_nothing_stale_sample :
    ∃ w f ended, publishing.run ⟨.start 4, []⟩ sampleEvents = some w ∧ w.calls[1]? = some (.returned (.flush f) ended) ∧
      w.shared.sinkCalls.length = 3 ∧ ∀ e ∈ w.shared.sinkCalls, ended ≤ e.time → NothingBefore f.time e.request := by
  have ho : ((publishing.run ⟨.start 4, []⟩ sampleEvents).any fun w =>
      ((w.calls[1]?).bind Call.flushed).isSome && w.shared.sinkCalls.length == 3) = true := by decide +kernel
  cases run : publishing.run ⟨.start 4, []⟩ sampleEvents with
  | none =>
    rw [run] at ho
    cases ho
  | some w =>
    rw [run] at ho
    obtain ⟨hf, hc⟩ := Bool.and_eq_true_iff.mp ho
    obtain ⟨⟨f, ended⟩, hfo⟩ := Option.isSome_iff_exists.mp hf
    obtain ⟨t, hh, is⟩ := Option.bind_eq_some_iff.mp hfo
    have returned : w.calls[1]? = some (.returned (.flush f) ended) := by
      rw [hh]
      cases t with
      | returned caller =>
        cases caller with
        | flush =>
          cases is
          rfl
        | _ => cases is
      | _ => cases is
    exact ⟨w, f, ended, rfl, returned, beq_iff_eq.mp hc, (flush_nothing_stale (by decide) sampleEvents run returned).1⟩

/-- In every run: when `applied` has caught up with the generation of the controller, the sets that the kernel was given last are the
ones of the controller. -/
theorem kernel_has_current_sets {maxEntries : Nat} (positive : 0 < maxEntries) (events : List (AsterCore.Event Call Unit))
    {w : World Memory Call} (run : publishing.run ⟨.start maxEntries, []⟩ events = some w)
    (caught : w.shared.applied = w.shared.controller.generation) {e : SinkCall} (last : w.shared.sinkCalls.getLast? = some e) :
    e.request.sets = ⟨w.shared.controller.lastDirect, w.shared.controller.lastProxy⟩ := by
  have start : publishing.Exclusive ⟨.start maxEntries, []⟩ ∧ assertions.Holds ⟨.start maxEntries, []⟩ :=
    ⟨fun _ _ _ _ _ hh => (by cases hh), memoryInv_start positive, fun _ _ hh => (by cases hh)⟩
  obtain ⟨_, hm, _⟩ := outline.run start (along_true _ _) run
  obtain ⟨hle, hsame⟩ := (hm.sinkCalls e (mem_of_getLast? last)).1.current
  have hge := hm.last e last
  rw [caught] at hge
  obtain ⟨hd, hp⟩ := hsame (le_antisymm hle hge)
  rw [← hd, ← hp]

theorem kernel_has_current_sets_sample : ∃ w e, publishing.run ⟨.start 4, []⟩ sampleEvents = some w ∧
    w.shared.sinkCalls.getLast? = some e ∧ e.request.sets = ⟨w.shared.controller.lastDirect, w.shared.controller.lastProxy⟩ := by
  have ho : ((publishing.run ⟨.start 4, []⟩ sampleEvents).any fun w =>
      w.shared.applied == w.shared.controller.generation && w.shared.sinkCalls.getLast?.isSome) = true := by decide +kernel
  obtain ⟨w, run, hw⟩ := (Option.any_eq_true _ _).mp ho
  obtain ⟨caught, hl⟩ := Bool.and_eq_true_iff.mp hw
  obtain ⟨e, last⟩ := Option.isSome_iff_exists.mp hl
  exact ⟨w, e, run, last, kernel_has_current_sets (by decide) sampleEvents run (beq_iff_eq.mp caught) last⟩

end AsterCore.KernelDirect
