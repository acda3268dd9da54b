import AsterCore.DirectFlush

namespace AsterCore.Tunnel

open List Function

open KernelDirect (Hosts Controller Orders DNSAnswer Classified PublishRequest NothingBefore)

/-- A rule provider as an interface value: the `*ruleSetProvider` that fetches, the `*RuleSetProvider` wrapped around it, or
an inline provider. The two pointers of one fetched provider carry the same number and are different values. -/
inductive ProviderObject
  | ruleSetProvider (name : String) (id : Nat)
  | wrapper (name : String) (id : Nat)
  | inline (name : String) (id : Nat)
  deriving DecidableEq

def ProviderObject.name : ProviderObject → String
  | .ruleSetProvider name _ | .wrapper name _ | .inline name _ => name

inductive ParsedProvider
  | ruleSet (name : String) (id : Nat)
  | inline (name : String) (id : Nat)

/-- The value that `NewRuleSetProvider` or `NewInlineProvider` returns. -/
def ParsedProvider.returned : ParsedProvider → ProviderObject
  | .ruleSet name id => .wrapper name id
  | .inline name id => .inline name id

/-- The value that `onUpdate` of `NewRuleSetProvider` emits. -/
def emitted (name : String) (id : Nat) : ProviderObject := .ruleSetProvider name id

/-- The fields that `ruleUpdateCallback` of a TUN listener reads; `ruleProviderTunnel` says that the pointer is not nil. -/
structure Listener where
  ruleProviderTunnel : Bool
  kernelDirect : Bool

/-- A kernel-direct controller, the table its last sets were built from, and the routing state it was registered or last
flushed under. -/
structure Learner where
  controller : Controller
  built : Addr → Hosts := fun _ _ => none
  flushedAt : Nat := 0

/-- An `observe` call after it has read `flushSeq`, with the answers it has classified. -/
structure Observing where
  controller : Nat
  flushSeq : Nat
  host : String
  items : List Classified := []

/-- What a change of the routing state leaves to be done: a `Flush` before and after it has read the live controllers, an
`Emit`, and a callback in its goroutine. -/
inductive Task
  | flush
  | flushing (todo : List Nat)
  | emit (provider : ProviderObject)
  | callback (l : Listener) (provider : ProviderObject)

/-- The tunnel with its TUN listeners. `version` counts the changes of the routing state; a classification carries the one
it was made under. A rule is its `disabled` flag, if it has one. -/
structure System where
  version : Nat := 0
  rules : List (Option Bool) := []
  ruleProviders : List ProviderObject := []
  listeners : List Listener := []
  live : List Nat := []
  learners : Nat → Learner := fun _ => { controller := KernelDirect.register 0 }
  next : Nat := 0
  observing : List Observing := []
  pending : List Task := []

inductive Act
  | updateRules (rules : List (Option Bool)) (ruleProviders : List ParsedProvider)
  | updateProxies
  | setMode
  | onUpdate (name : String) (id : Nat)
  | disableRules (payload : List (Int × Bool))
  | task (i : Nat)
  | listen (kernelDirect : Bool)
  | unlisten (i : Nat)
  | register (maxEntries : Nat)
  | close (k : Nat)
  | refresh (k : Nat) (isFakeIP : Addr → Bool) (host : String) (answers : List DNSAnswer) (now : Int)
  | load (k : Nat) (host : String)
  | classify (i : Nat) (isFakeIP : Addr → Bool) (observedAt : Int) (answers : List DNSAnswer)
  | insert (i : Nat) (orders : Orders) (now : Int)
  | tick (k : Nat) (orders : Orders) (now : Int)

def Learner.published (l : Learner) : PublishRequest :=
  ⟨⟨l.controller.lastDirect, l.controller.lastProxy⟩, l.controller.generation, 0, l.built⟩

/-- The controller after one of its locked parts; a new generation means new sets. -/
def Learner.put (l : Learner) (c : Controller) : Learner :=
  { l with controller := c, built := if c.generation = l.controller.generation then l.built else c.stored }

def Learner.flush (version : Nat) (l : Learner) : Learner := { l.put l.controller.flush with flushedAt := version }

/-- One round of the loop in `disableRules`. -/
def setDisabled (rules : List (Option Bool)) (entry : Int × Bool) : List (Option Bool) :=
  if entry.1 < 0 ∨ (rules.length : Int) ≤ entry.1 then rules
  else rules.modify entry.1.toNat fun rule => rule.map fun _ => entry.2

def entriesOf (maxEntries : Nat) : Nat := min (if maxEntries = 0 then 4096 else maxEntries) 65536

namespace System

def ruleProvider (s : System) (name : String) : Option ProviderObject := s.ruleProviders.find? fun p => p.name = name

/-- `ruleUpdateCallback`: whether it gets to `Flush`. -/
def ruleUpdateCallback (s : System) (l : Listener) (provider : ProviderObject) : Bool :=
  if l.ruleProviderTunnel then
    match s.ruleProvider provider.name with
    | none => false
    | some current => if current ≠ provider then false else l.kernelDirect
  else l.kernelDirect

def setLearner (s : System) (k : Nat) (l : Learner) : System := { s with learners := Function.update s.learners k l }

def perform (s : System) (i : Nat) : System :=
  match s.pending[i]? with
  | none => s
  | some .flush => { s with pending := s.pending.set i (.flushing s.live) }
  | some (.flushing []) => { s with pending := s.pending.eraseIdx i }
  | some (.flushing (k :: todo)) =>
    { s.setLearner k ((s.learners k).flush s.version) with pending := s.pending.set i (.flushing todo) }
  | some (.emit provider) => { s with pending := s.pending.eraseIdx i ++ s.listeners.map fun l => .callback l provider }
  | some (.callback l provider) =>
    { s with pending := if s.ruleUpdateCallback l provider then s.pending.set i .flush else s.pending.eraseIdx i }

def installed (s : System) (name : String) (id : Nat) : Bool :=
  s.ruleProvider name = some (ParsedProvider.ruleSet name id).returned

variable (classifier : Nat → String → Addr → Bool)

def act (s : System) : Act → System
  | .updateRules rules ruleProviders =>
    { s with version := s.version + 1, rules := rules, ruleProviders := ruleProviders.map ParsedProvider.returned
             pending := s.pending ++ [.flush] }
  | .updateProxies => { s with version := s.version + 1, pending := s.pending ++ [.flush] }
  | .setMode => { s with version := s.version + 1, pending := s.pending ++ [.flush] }
  | .onUpdate name id =>
    { s with version := if s.installed name id then s.version + 1 else s.version
             pending := s.pending ++ [.emit (emitted name id)] }
  | .disableRules payload =>
    let rules := payload.foldl setDisabled s.rules
    { s with rules := rules, version := if rules = s.rules then s.version else s.version + 1 }
  | .task i => s.perform i
  | .listen kernelDirect => { s with listeners := s.listeners ++ [⟨true, kernelDirect⟩] }
  | .unlisten i => { s with listeners := s.listeners.eraseIdx i }
  | .register maxEntries =>
    { s.setLearner s.next { controller := KernelDirect.register (entriesOf maxEntries), flushedAt := s.version } with
      live := s.next :: s.live, next := s.next + 1 }
  | .close k =>
    { s.setLearner k { s.learners k with controller := { (s.learners k).controller with closed := true } } with
      live := s.live.filter (· ≠ k) }
  | .refresh k isFakeIP host answers now =>
    s.setLearner k ((s.learners k).put ((s.learners k).controller.refreshExistingLocked isFakeIP host answers now).1)
  | .load k host =>
    if k < s.next then { s with observing := s.observing ++ [⟨k, (s.learners k).controller.flushSeq, host, []⟩] } else s
  | .classify i isFakeIP observedAt answers =>
    { s with observing := s.observing.modify i fun o =>
        { o with items := o.items ++ KernelDirect.classify isFakeIP (some (classifier s.version)) s.version o.host observedAt answers } }
  | .insert i orders now =>
    match s.observing[i]? with
    | none => s
    | some o =>
      let l := s.learners o.controller
      { s.setLearner o.controller (l.put (l.controller.insertLocked orders o.flushSeq o.host o.items now).1) with
        observing := s.observing.eraseIdx i }
  | .tick k orders now => s.setLearner k ((s.learners k).put ((s.learners k).controller.tickLocked orders now).1)

def run (acts : List Act) (s : System) : System := acts.foldl (act classifier) s

end System

structure Fresh (version : Nat) (l : Learner) (k : Nat) (observing : List Observing) : Prop where
  flushedAt : l.flushedAt = version
  records : ∀ addr host r, l.controller.stored addr host = some r → version ≤ r.call
  published : NothingBefore version l.published
  accepted : ∀ o ∈ observing, o.controller = k → o.flushSeq = l.controller.flushSeq → ∀ item ∈ o.items, version ≤ item.call

def Task.Reaches (k : Nat) : Task → Prop
  | .flush => True
  | .flushing todo => k ∈ todo
  | _ => False

def Awaits (pending : List Task) (k : Nat) : Prop := ∃ t ∈ pending, t.Reaches k

structure Serving (next : Nat) (l : Learner) (k : Nat) : Prop where
  old : k < next
  inv : KernelDirect.Inv l.controller
  opened : l.controller.closed = false

structure Covered (s : System) : Prop where
  serving : ∀ k ∈ s.live, Serving s.next (s.learners k) k
  seen : ∀ o ∈ s.observing, o.controller < s.next
  behind : ∀ o ∈ s.observing, o.controller ∈ s.live → o.flushSeq ≤ (s.learners o.controller).controller.flushSeq
  fresh : ∀ k ∈ s.live, Awaits s.pending k ∨ Fresh s.version (s.learners k) k s.observing

variable {pending : List Task}

theorem Awaits.append {k : Nat} (h : Awaits pending k) (more : List Task) : Awaits (pending ++ more) k := by
  obtain ⟨t, mem, hr⟩ := h
  exact ⟨t, mem_append_left _ mem, hr⟩

theorem Awaits.other {k i : Nat} {t : Task} (h : Awaits pending k) (hh : pending[i]? = some t)
    (not : ¬t.Reaches k) : (∀ t', Awaits (pending.set i t') k) ∧ Awaits (pending.eraseIdx i) k := by
  obtain ⟨u, mem, hr⟩ := h
  obtain ⟨j, at_j⟩ := mem_iff_getElem?.mp mem
  have ne : i ≠ j := by
    rintro rfl
    rw [hh] at at_j
    cases at_j
    exact not hr
  refine ⟨fun t' => ⟨u, ?_, hr⟩, u, ?_, hr⟩
  · exact mem_iff_getElem?.mpr ⟨j, by rw [getElem?_set_ne ne, at_j]⟩
  · rw [mem_eraseIdx_iff_getElem?]
    exact ⟨j, ne.symm, at_j⟩

theorem Awaits.set {k i : Nat} {t t' : Task} (hh : pending[i]? = some t) (hr : t'.Reaches k) :
    Awaits (pending.set i t') k := by
  obtain ⟨lt, _⟩ := List.getElem?_eq_some_iff.mp hh
  exact ⟨t', mem_set lt t', hr⟩

namespace Fresh

variable {version : Nat} {l : Learner} {k : Nat} {observing : List Observing}

theorem put (h : Fresh version l k observing) {c : Controller} {calls : List Nat} (hc : l.controller.Changed c)
    (ht : l.controller.Traced calls c) (new : ∀ call ∈ calls, version ≤ call) : Fresh version (l.put c) k observing := by
  have hr : ∀ addr host r, c.stored addr host = some r → version ≤ r.call := by
    intro addr host r hth
    obtain ⟨old, hb, hs⟩ | call := ht addr host r hth
    · rw [← hs]
      exact h.records addr host old hb
    · exact new r.call call
  refine ⟨h.flushedAt, hr, ?_, ?_⟩
  · intro addr mem
    unfold Learner.put
    split
    next hs =>
      obtain ⟨_, hd, hp⟩ | _ := hc.sets
      · have hb : addr ∈ l.controller.lastDirect ∨ addr ∈ l.controller.lastProxy := by
          rw [← hd, ← hp]
          exact mem
        exact h.published addr hb
      · omega
    next ho => exact ⟨hc.backed ho addr mem, hr addr⟩
  · intro o mem is seq
    exact h.accepted o mem is (seq.trans hc.flushSeq)

theorem mono (h : Fresh version l k observing) {fewer : List Observing} (sub : ∀ o ∈ fewer, o ∈ observing) :
    Fresh version l k fewer :=
  ⟨h.flushedAt, h.records, h.published, fun o mem => h.accepted o (sub o mem)⟩

theorem of_empty {c : Controller} {built : Addr → Hosts} (hs : ∀ addr host, c.stored addr host = none)
    (hd : c.lastDirect = ∅) (hp : c.lastProxy = ∅) (ha : ∀ o ∈ observing, o.controller = k → o.flushSeq ≠ c.flushSeq) :
    Fresh version ⟨c, built, version⟩ k observing := by
  refine ⟨rfl, ?_, ?_, ?_⟩
  · intro addr host r ht
    rw [hs addr host] at ht
    cases ht
  · intro _ mem
    simp only [Learner.published, hd, hp, Finset.notMem_empty, or_false] at mem
  · intro o mem is seq
    exact absurd seq (ha o mem is)

end Fresh

namespace Covered

variable {s : System}

theorem frame (h : Covered s) {rules : List (Option Bool)} {ruleProviders : List ProviderObject} {listeners : List Listener}
    {pending : List Task} (hk : ∀ k, Awaits s.pending k → Awaits pending k) :
    Covered { s with rules := rules, ruleProviders := ruleProviders, listeners := listeners, pending := pending } :=
  ⟨h.serving, h.seen, h.behind, fun k hl => (h.fresh k hl).imp_left (hk k)⟩

theorem change (h : Covered s) {version : Nat} {rules : List (Option Bool)} {ruleProviders : List ProviderObject}
    {pending : List Task} (hr : ∀ k ∈ s.live, Awaits pending k) :
    Covered { s with version := version, rules := rules, ruleProviders := ruleProviders, pending := pending } :=
  ⟨h.serving, h.seen, h.behind, fun k hl => .inl (hr k hl)⟩

theorem awaits_flush (pending : List Task) (k : Nat) : Awaits (pending ++ [.flush]) k :=
  ⟨.flush, mem_append_right _ (mem_singleton_self _), trivial⟩

theorem put (h : Covered s) (k : Nat) {c : Controller} {observing : List Observing} (sub : ∀ o ∈ observing, o ∈ s.observing)
    (hs : k ∈ s.live → (s.learners k).controller.Changed c ∧ ∃ calls, (s.learners k).controller.Traced calls c ∧
      (Fresh s.version (s.learners k) k s.observing → ∀ call ∈ calls, s.version ≤ call)) :
    Covered { s.setLearner k ((s.learners k).put c) with observing := observing } := by
  refine ⟨?_, fun o mem => h.seen o (sub o mem), ?_, ?_⟩
  · intro j hl
    by_cases is : j = k
    · subst is
      obtain ⟨hc, _⟩ := hs hl
      have old := h.serving j hl
      simp only [System.setLearner, update_self]
      exact ⟨old.old, hc.inv, hc.closed.trans old.opened⟩
    · simp only [System.setLearner, update_of_ne is]
      exact h.serving j hl
  · intro o mem hl
    have hb := h.behind o (sub o mem) hl
    by_cases is : o.controller = k
    · rw [is] at hb hl
      obtain ⟨hc, _⟩ := hs hl
      simp only [System.setLearner, is, update_self]
      exact hb.trans hc.flushSeq.ge
    · simp only [System.setLearner, update_of_ne is]
      exact hb
  · intro j hl
    obtain ha | fresh := h.fresh j hl
    · exact .inl ha
    · right
      by_cases is : j = k
      · subst is
        obtain ⟨hc, _, ht, new⟩ := hs hl
        simp only [System.setLearner, update_self]
        exact (fresh.put hc ht (new fresh)).mono sub
      · simp only [System.setLearner, update_of_ne is]
        exact fresh.mono sub

theorem flush_spec {c : Controller} (inv : KernelDirect.Inv c) (ho : c.closed = false) :
    KernelDirect.Inv c.flush ∧ c.flush.closed = false ∧ c.flush.flushSeq = c.flushSeq + 1 ∧
      (∀ addr host, c.flush.stored addr host = none) ∧ c.flush.lastDirect = ∅ ∧ c.flush.lastProxy = ∅ := by
  have hr : KernelDirect.Inv { c with flushSeq := c.flushSeq + 1 } :=
    KernelDirect.Controller.Inv.frame inv rfl rfl rfl rfl rfl rfl rfl rfl rfl
  obtain ⟨inv', ho', seq, hs, hd, hp, _⟩ :=
    KernelDirect.Controller.flushLocked_spec hr ho (Prod.mk.eta (p := Controller.flushLocked _)).symm
  exact ⟨inv', ho', seq, hs, hd, hp⟩

theorem flushing (h : Covered s) {i k : Nat} {todo : List Nat} (hh : s.pending[i]? = some (.flushing (k :: todo))) :
    Covered { s.setLearner k ((s.learners k).flush s.version) with pending := s.pending.set i (.flushing todo) } := by
  have ha : ∀ j, j ≠ k → Awaits s.pending j → Awaits (s.pending.set i (.flushing todo)) j := by
    intro j ne old
    by_cases hr : j ∈ todo
    · exact .set hh hr
    · have not : ¬(Task.flushing (k :: todo)).Reaches j := fun mem => (mem_cons.mp mem).elim ne hr
      exact (old.other hh not).1 _
  refine ⟨?_, h.seen, ?_, ?_⟩
  · intro j hl
    have old := h.serving j hl
    by_cases is : j = k
    · subst is
      obtain ⟨inv, ho, _⟩ := flush_spec old.inv old.opened
      simp only [System.setLearner, update_self]
      exact ⟨old.old, inv, ho⟩
    · simp only [System.setLearner, update_of_ne is]
      exact old
  · intro o mem hl
    have hb := h.behind o mem hl
    have old := h.serving o.controller hl
    by_cases is : o.controller = k
    · obtain ⟨_, _, seq, _⟩ := flush_spec old.inv old.opened
      rw [is] at hb seq
      simp only [System.setLearner, is, update_self]
      exact hb.trans ((Nat.le_succ _).trans seq.ge)
    · simp only [System.setLearner, update_of_ne is]
      exact hb
  · intro j hl
    by_cases is : j = k
    · subst is
      have old := h.serving j hl
      obtain ⟨_, _, seq, hs, hd, hp⟩ := flush_spec old.inv old.opened
      right
      simp only [System.setLearner, update_self]
      refine Fresh.of_empty hs hd hp ?_
      intro o mem is same
      have hb := h.behind o mem (is ▸ hl)
      have raised := same.trans seq
      rw [is] at hb
      omega
    · simp only [System.setLearner, update_of_ne is]
      exact (h.fresh j hl).imp_left (ha j is)

theorem perform (h : Covered s) (i : Nat) : Covered (s.perform i) := by
  unfold System.perform
  split
  · exact h
  next hh => exact ⟨h.serving, h.seen, h.behind, fun k hl => .inl (.set hh hl)⟩
  next hh => exact h.frame fun k old => (old.other hh not_mem_nil).2
  next hh => exact h.flushing hh
  next hh => exact h.frame fun k old => (old.other hh id).2.append _
  next hh =>
    refine h.frame fun k old => ?_
    split
    · exact .set hh trivial
    · exact (old.other hh id).2

theorem register (h : Covered s) (maxEntries : Nat) :
    Covered { s.setLearner s.next { controller := KernelDirect.register (entriesOf maxEntries), flushedAt := s.version } with
      live := s.next :: s.live, next := s.next + 1 } := by
  have ho : ∀ k, k < s.next → k ≠ s.next := fun k lt => by omega
  have hp : 0 < entriesOf maxEntries := by
    unfold entriesOf
    split <;> omega
  refine ⟨?_, fun o mem => (h.seen o mem).trans (Nat.lt_succ_self _), ?_, ?_⟩
  · intro k live
    obtain rfl | live := mem_cons.mp live
    · simp only [System.setLearner, update_self]
      exact ⟨Nat.lt_succ_self _, KernelDirect.Controller.register_inv hp, rfl⟩
    · have old := h.serving k live
      simp only [System.setLearner, update_of_ne (ho k old.old)]
      exact ⟨old.old.trans (Nat.lt_succ_self _), old.inv, old.opened⟩
  · intro o mem live
    have ne := ho o.controller (h.seen o mem)
    simp only [System.setLearner, update_of_ne ne]
    exact h.behind o mem ((mem_cons.mp live).resolve_left ne)
  · intro k live
    obtain rfl | live := mem_cons.mp live
    · right
      simp only [System.setLearner, update_self]
      refine Fresh.of_empty (fun _ _ => rfl) rfl rfl ?_
      intro o mem is
      exact absurd is (ho _ (h.seen o mem))
    · simp only [System.setLearner, update_of_ne (ho k (h.serving k live).old)]
      exact h.fresh k live

theorem close (h : Covered s) (k : Nat) (l : Learner) : Covered { s.setLearner k l with live := s.live.filter (· ≠ k) } := by
  have left : ∀ {j}, j ∈ s.live.filter (· ≠ k) → j ∈ s.live ∧ j ≠ k := by
    intro j mem
    obtain ⟨hl, ne⟩ := mem_filter.mp mem
    exact ⟨hl, of_decide_eq_true ne⟩
  refine ⟨?_, h.seen, ?_, ?_⟩
  · intro j mem
    obtain ⟨hl, ne⟩ := left mem
    simp only [System.setLearner, update_of_ne ne]
    exact h.serving j hl
  · intro o mem ht
    obtain ⟨hl, ne⟩ := left ht
    simp only [System.setLearner, update_of_ne ne]
    exact h.behind o mem hl
  · intro j mem
    obtain ⟨hl, ne⟩ := left mem
    simp only [System.setLearner, update_of_ne ne]
    exact h.fresh j hl

theorem load (h : Covered s) {k : Nat} (old : k < s.next) (host : String) :
    Covered { s with observing := s.observing ++ [⟨k, (s.learners k).controller.flushSeq, host, []⟩] } := by
  refine ⟨h.serving, ?_, ?_, ?_⟩
  · intro o mem
    obtain mem | rfl := (mem_append.mp mem).imp_right mem_singleton.mp
    · exact h.seen o mem
    · exact old
  · intro o mem hl
    obtain mem | rfl := (mem_append.mp mem).imp_right mem_singleton.mp
    · exact h.behind o mem hl
    · exact le_refl _
  · intro j hl
    refine (h.fresh j hl).imp_right fun hf => ⟨hf.flushedAt, hf.records, hf.published, ?_⟩
    intro o mem is seq
    obtain mem | rfl := (mem_append.mp mem).imp_right mem_singleton.mp
    · exact hf.accepted o mem is seq
    · exact fun item hn => absurd hn not_mem_nil

theorem classify_call {isFakeIP : Addr → Bool} {classifier : Option (String → Addr → Bool)} {call : Nat} {host : String}
    {observedAt : Int} {answers : List DNSAnswer} {item : Classified}
    (mem : item ∈ KernelDirect.classify isFakeIP classifier call host observedAt answers) : item.call = call := by
  obtain ⟨_, _, hm⟩ := mem_filterMap.mp mem
  simp only at hm
  split at hm <;> cases hm
  rfl

theorem classify (h : Covered s) (i : Nat) {more : Observing → List Classified}
    (new : ∀ o, ∀ item ∈ more o, item.call = s.version) :
    Covered { s with observing := s.observing.modify i fun o => { o with items := o.items ++ more o } } := by
  have hb : ∀ o ∈ s.observing.modify i (fun o => { o with items := o.items ++ more o }),
      ∃ p ∈ s.observing, o = p ∨ o = { p with items := p.items ++ more p } := by
    intro o mem
    obtain ⟨j, at_j⟩ := mem_iff_getElem?.mp mem
    rw [getElem?_modify] at at_j
    obtain ⟨p, ht, hm⟩ := Option.map_eq_some_iff.mp at_j
    refine ⟨p, mem_of_getElem? ht, ?_⟩
    split at hm
    · exact .inr hm.symm
    · exact .inl hm.symm
  refine ⟨h.serving, ?_, ?_, ?_⟩
  · intro o mem
    obtain ⟨p, ht, rfl | rfl⟩ := hb o mem
    · exact h.seen o ht
    · exact h.seen p ht
  · intro o mem hl
    obtain ⟨p, ht, rfl | rfl⟩ := hb o mem
    · exact h.behind o ht hl
    · exact h.behind p ht hl
  · intro j hl
    refine (h.fresh j hl).imp_right fun hf => ⟨hf.flushedAt, hf.records, hf.published, ?_⟩
    intro o mem is seq item mem_item
    obtain ⟨p, ht, rfl | rfl⟩ := hb o mem
    · exact hf.accepted o ht is seq item mem_item
    · obtain old | added := mem_append.mp mem_item
      · exact hf.accepted p ht is seq item old
      · exact (new p item added).ge

end Covered

/-- A change that nothing follows up meets no live controller: an update of an installed provider, and a call of the rules
API that changes a flag. -/
def Handled (s : System) : Act → Prop
  | .onUpdate name id => s.installed name id → s.live = []
  | .disableRules payload => payload.foldl setDisabled s.rules ≠ s.rules → s.live = []
  | _ => True

theorem Covered.act {s : System} (h : Covered s) (classifier : Nat → String → Addr → Bool) (a : Act) (hh : Handled s a) :
    Covered (s.act classifier a) := by
  have hn : s.live = [] → ∀ pending : List Task, ∀ k ∈ s.live, Awaits pending k := by
    intro none _ k hl
    rw [none] at hl
    cases hl
  cases a with
  | updateRules rules ruleProviders | updateProxies | setMode => exact h.change fun k _ => awaits_flush _ k
  | onUpdate =>
    simp only [System.act]
    split
    next hi => exact h.change (hn (hh hi) _)
    · exact h.frame fun k old => old.append _
  | disableRules =>
    simp only [System.act]
    split
    · exact h.frame fun k old => old
    next hc => exact h.change (hn (hh hc) _)
  | task i => exact h.perform i
  | listen kernelDirect | unlisten i => exact h.frame fun k old => old
  | register maxEntries => exact h.register maxEntries
  | close k => exact h.close k _
  | refresh k =>
    refine h.put k (fun o mem => mem) fun hl => ?_
    have old := h.serving k hl
    obtain ⟨hc, ht⟩ := KernelDirect.Controller.refreshExistingLocked_spec old.inv old.opened rfl
    exact ⟨hc, [], ht, fun _ call none => absurd none not_mem_nil⟩
  | load _ host =>
    simp only [System.act]
    split
    next old => exact h.load old host
    · exact h
  | classify i => exact h.classify i fun o item mem => classify_call mem
  | insert _ orders now =>
    simp only [System.act]
    split
    · exact h
    next o here =>
      have hth := mem_of_getElem? here
      refine h.put o.controller (fun p mem => mem_of_mem_eraseIdx mem) fun hl => ?_
      have old := h.serving o.controller hl
      generalize hin : (s.learners o.controller).controller.insertLocked orders o.flushSeq o.host o.items now = r
      obtain ⟨hc, ha, ht, _⟩ := KernelDirect.Controller.insertLocked_spec old.inv old.opened hin
      obtain seq | same := ha
      · refine ⟨hc, _, ht, fun hf call mem => ?_⟩
        obtain ⟨item, mem_item, rfl⟩ := mem_map.mp mem
        exact hf.accepted o hth rfl seq item mem_item
      · -- A flush came between, and the answers are dropped.
        refine ⟨hc, [], ?_, fun _ call none => absurd none not_mem_nil⟩
        rw [same]
        exact .refl _
  | tick k =>
    refine h.put k (fun o mem => mem) fun hl => ?_
    have old := h.serving k hl
    obtain ⟨hc, ht, _⟩ := KernelDirect.Controller.tickLocked_spec old.inv old.opened rfl
    exact ⟨hc, [], ht, fun _ call none => absurd none not_mem_nil⟩

def HandledAlong (classifier : Nat → String → Addr → Bool) : System → List Act → Prop
  | _, [] => True
  | s, a :: acts => Handled s a ∧ HandledAlong classifier (s.act classifier a) acts

theorem Covered.run {s : System} (h : Covered s) (classifier : Nat → String → Addr → Bool) {acts : List Act}
    (hh : HandledAlong classifier s acts) : Covered (s.run classifier acts) := by
  induction acts generalizing s with
  | nil => exact h
  | cons a _ ih => exact ih (h.act classifier a hh.1) hh.2

/-- Every controller has been flushed under the current routing state, and what it last published says nothing about an
address it learned before. -/
def System.Invalidated (s : System) : Prop :=
  ∀ k ∈ s.live, (s.learners k).flushedAt = s.version ∧ NothingBefore s.version (s.learners k).published

theorem Covered.invalidated {s : System} (h : Covered s) (hi : s.pending = []) : s.Invalidated := by
  intro k hl
  obtain ⟨t, mem, _⟩ | fresh := h.fresh k hl
  · rw [hi] at mem
    cases mem
  · exact ⟨fresh.flushedAt, fresh.published⟩

/-- An `Emit` or a callback as the code makes them: the listener's tunnel pointer is set, and the provider is the one that
`onUpdate` emits. -/
def Task.FromUpdate : Task → Prop
  | .emit provider => ∃ name id, provider = emitted name id
  | .callback l provider => l.ruleProviderTunnel = true ∧ ∃ name id, provider = emitted name id
  | _ => False

structure Made (s : System) : Prop where
  ruleProviders : ∀ p ∈ s.ruleProviders, ∃ q : ParsedProvider, p = q.returned
  listeners : ∀ l ∈ s.listeners, l.ruleProviderTunnel = true
  flushedAt : ∀ k, (s.learners k).flushedAt ≤ s.version

namespace Made

variable {s : System}

section

variable (h : Made s)

include h

theorem setLearner (k : Nat) {l : Learner} (le : l.flushedAt ≤ s.version) : Made (s.setLearner k l) := by
  refine ⟨h.ruleProviders, h.listeners, fun j => ?_⟩
  by_cases is : j = k
  · subst is
    simp only [System.setLearner, update_self]
    exact le
  · simp only [System.setLearner, update_of_ne is]
    exact h.flushedAt j

theorem change {version : Nat} {rules : List (Option Bool)} {pending : List Task} (le : s.version ≤ version) :
    Made { s with version := version, rules := rules, pending := pending } :=
  ⟨h.ruleProviders, h.listeners, fun k => (h.flushedAt k).trans le⟩

theorem perform (i : Nat) : Made (s.perform i) := by
  unfold System.perform
  split
  · exact h
  · exact h.change le_rfl
  · exact h.change le_rfl
  next k _ _ =>
    have hf := h.setLearner k (l := (s.learners k).flush s.version) le_rfl
    exact hf.change le_rfl
  · exact h.change le_rfl
  · exact h.change le_rfl

theorem act (classifier : Nat → String → Addr → Bool) (a : Act) : Made (s.act classifier a) := by
  cases a with
  | updateRules =>
    refine ⟨?_, h.listeners, fun k => (h.flushedAt k).trans (Nat.le_succ _)⟩
    intro p mem
    obtain ⟨q, _, rfl⟩ := mem_map.mp mem
    exact ⟨q, rfl⟩
  | updateProxies | setMode => exact h.change (Nat.le_succ _)
  | onUpdate =>
    refine h.change ?_
    split
    · exact Nat.le_succ _
    · exact le_refl _
  | disableRules =>
    refine h.change ?_
    split
    · exact le_refl _
    · exact Nat.le_succ _
  | task i => exact h.perform i
  | listen =>
    refine ⟨h.ruleProviders, ?_, h.flushedAt⟩
    intro l mem
    obtain mem | rfl := (mem_append.mp mem).imp_right mem_singleton.mp
    · exact h.listeners l mem
    · rfl
  | unlisten => exact ⟨h.ruleProviders, fun l mem => h.listeners l (mem_of_mem_eraseIdx mem), h.flushedAt⟩
  | register maxEntries =>
    have hm := h.setLearner s.next (l := ⟨KernelDirect.register (entriesOf maxEntries), fun _ _ => none, s.version⟩) (le_refl _)
    exact ⟨hm.ruleProviders, hm.listeners, hm.flushedAt⟩
  | close k =>
    have hm := h.setLearner k (l := { s.learners k with controller := { (s.learners k).controller with closed := true } })
      (h.flushedAt k)
    exact ⟨hm.ruleProviders, hm.listeners, hm.flushedAt⟩
  | refresh k => exact h.setLearner k (h.flushedAt k)
  | load =>
    simp only [System.act]
    split
    · exact ⟨h.ruleProviders, h.listeners, h.flushedAt⟩
    · exact h
  | classify => exact ⟨h.ruleProviders, h.listeners, h.flushedAt⟩
  | insert _ orders now =>
    simp only [System.act]
    split
    · exact h
    next o _ =>
      have hm := h.setLearner o.controller (l := (s.learners o.controller).put
        ((s.learners o.controller).controller.insertLocked orders o.flushSeq o.host o.items now).1) (h.flushedAt o.controller)
      exact ⟨hm.ruleProviders, hm.listeners, hm.flushedAt⟩
  | tick k => exact h.setLearner k (h.flushedAt k)

theorem run (classifier : Nat → String → Addr → Bool) (acts : List Act) : Made (s.run classifier acts) := by
  induction acts generalizing s with
  | nil => exact h
  | cons a _ ih => exact ih (h.act classifier a)

theorem ruleUpdateCallback_emitted {l : Listener} (hp : l.ruleProviderTunnel = true) (name : String) (id : Nat) :
    s.ruleUpdateCallback l (emitted name id) = false := by
  unfold System.ruleUpdateCallback
  rw [hp, if_pos rfl]
  split
  · rfl
  next current hf =>
    obtain ⟨q, rfl⟩ := h.ruleProviders current (mem_of_find?_eq_some hf)
    have ho : q.returned ≠ emitted name id := by cases q <;> exact fun hs => by cases hs
    rw [if_pos ho]

theorem perform_fromUpdate (ht : ∀ t ∈ s.pending, t.FromUpdate) (i : Nat) :
    (∀ t ∈ (s.perform i).pending, t.FromUpdate) ∧ (s.perform i).learners = s.learners ∧ (s.perform i).live = s.live ∧
      (s.perform i).version = s.version := by
  have he : ∀ t ∈ s.pending.eraseIdx i, t.FromUpdate := fun t mem => ht t (mem_of_mem_eraseIdx mem)
  unfold System.perform
  split
  · exact ⟨ht, rfl, rfl, rfl⟩
  next hh => exact (ht _ (mem_of_getElem? hh)).elim
  next hh => exact (ht _ (mem_of_getElem? hh)).elim
  next hh => exact (ht _ (mem_of_getElem? hh)).elim
  next hh =>
    refine ⟨fun t mem => ?_, rfl, rfl, rfl⟩
    obtain mem | mem := mem_append.mp mem
    · exact he t mem
    · obtain ⟨l, hl, rfl⟩ := mem_map.mp mem
      exact ⟨h.listeners l hl, ht _ (mem_of_getElem? hh)⟩
  next hh =>
    obtain ⟨hp, _, _, rfl⟩ := ht _ (mem_of_getElem? hh)
    refine ⟨?_, rfl, rfl, rfl⟩
    simp only [h.ruleUpdateCallback_emitted hp, Bool.false_eq_true]
    exact he

theorem tasks_fromUpdate (classifier : Nat → String → Addr → Bool) (ht : ∀ t ∈ s.pending, t.FromUpdate)
    (is : List Nat) : (s.run classifier (is.map .task)).learners = s.learners ∧
      (s.run classifier (is.map .task)).live = s.live ∧ (s.run classifier (is.map .task)).version = s.version := by
  induction is generalizing s with
  | nil => exact ⟨rfl, rfl, rfl⟩
  | cons i _ ih =>
    obtain ⟨ht', hl, live, hv⟩ := h.perform_fromUpdate ht i
    obtain ⟨hl', live', hv'⟩ := ih (h.perform i) ht'
    exact ⟨hl'.trans hl, live'.trans live, hv'.trans hv⟩

theorem not_invalidated (classifier : Nat → String → Addr → Bool) {s' : System} (hm : Made s')
    (ht : ∀ t ∈ s'.pending, t.FromUpdate) (hl : s'.learners = s.learners) (live : s'.live = s.live)
    (hv : s'.version = s.version + 1) (hs : s.live ≠ []) (is : List Nat) : ¬(s'.run classifier (is.map .task)).Invalidated := by
  intro hi
  obtain ⟨k, mem⟩ := exists_mem_of_ne_nil _ hs
  obtain ⟨hl', live', hv'⟩ := hm.tasks_fromUpdate classifier ht is
  obtain ⟨hfa, _⟩ := hi k (by rw [live', live]; exact mem)
  rw [hl', hl, hv'] at hfa
  have hb := h.flushedAt k
  omega

end

end Made

theorem covered_start : Covered {} :=
  ⟨fun _ mem => absurd mem not_mem_nil, fun _ mem => absurd mem not_mem_nil, fun _ mem => absurd mem not_mem_nil,
    fun _ mem => absurd mem not_mem_nil⟩

theorem made_start : Made {} :=
  ⟨fun _ mem => absurd mem not_mem_nil, fun _ mem => absurd mem not_mem_nil, fun _ => le_refl _⟩

/-- In every run of handled acts, whenever nothing is left to be done, every controller is flushed and has nothing of an earlier
routing state published. An act that is not handled leaves its controllers as they were, whatever of its notifications has run. -/
theorem routing_changes_invalidate (classifier : Nat → String → Addr → Bool) (acts : List Act) :
    (HandledAlong classifier {} acts → (System.run classifier acts {}).pending = [] → (System.run classifier acts {}).Invalidated) ∧
      ∀ (a : Act) (tasks : List Nat), (System.run classifier acts {}).pending = [] → ¬Handled (System.run classifier acts {}) a →
        ¬(System.run classifier (a :: tasks.map .task) (System.run classifier acts {})).Invalidated := by
  refine ⟨fun handled hi => (covered_start.run classifier handled).invalidated hi, ?_⟩
  intro a tasks hi hu
  have hm := made_start.run classifier acts
  generalize System.run classifier acts {} = s at hi hu hm
  have hm' := hm.act classifier a
  cases a with
  | onUpdate name id =>
    simp only [Handled, Classical.not_imp] at hu
    obtain ⟨hin, hs⟩ := hu
    refine hm.not_invalidated classifier hm' ?_ rfl rfl ?_ hs tasks
    · intro t mem
      simp only [System.act, hi, nil_append, mem_singleton] at mem
      subst mem
      exact ⟨name, id, rfl⟩
    · simp only [System.act, hin, if_true]
  | disableRules =>
    simp only [Handled, Classical.not_imp] at hu
    obtain ⟨hc, hs⟩ := hu
    refine hm.not_invalidated classifier hm' ?_ rfl rfl ?_ hs tasks
    · intro t mem
      simp only [System.act, hi] at mem
      cases mem
    · simp only [System.act, if_neg hc]
  | _ => exact absurd trivial hu

/-- Rules with one provider, a TUN listener with a controller, and one address that is classified, inserted and published. -/
def sampleLearned : List Act :=
  [.updateRules [some false] [.ruleSet "cn" 7], .task 0, .task 0, .listen true, .register 4, .load 0 "d",
    .classify 0 (fun _ => false) 0 [⟨KernelDirect.sampleAddr, 100 * 1000000000⟩], .insert 0 KernelDirect.plainOrders 0]

/-- The first state after the start sends everything DIRECT, the later ones nothing. -/
def sampleRouting (version : Nat) (_ : String) (_ : Addr) : Bool := version == 1

theorem routing_changes_invalidate_sample :
    KernelDirect.sampleAddr ∈ ((System.run sampleRouting sampleLearned {}).learners 0).controller.lastDirect ∧
      (System.run sampleRouting (sampleLearned ++ [.setMode, .task 0, .task 0, .task 0]) {}).live = [0] ∧
      (System.run sampleRouting (sampleLearned ++ [.setMode, .task 0, .task 0, .task 0]) {}).Invalidated := by
  refine ⟨by decide +kernel, by decide +kernel, (routing_changes_invalidate sampleRouting _).1 ?_ ?_⟩
  · exact ⟨trivial, trivial, trivial, trivial, trivial, trivial, trivial, trivial, trivial, trivial, trivial, trivial, trivial⟩
  · exact eq_nil_of_length_eq_zero (by decide +kernel)

/-- Nothing is left to be done, the routing state is the second, which does not send the address DIRECT, and the address
learned under the first is still published as DIRECT. -/
def StaleAfter (acts : List Act) : Prop :=
  let s := System.run sampleRouting (sampleLearned ++ acts) {}
  s.pending.length = 0 ∧ s.live = [0] ∧ s.version = 2 ∧ sampleRouting 2 "d" KernelDirect.sampleAddr = false ∧
    KernelDirect.sampleAddr ∈ (s.learners 0).controller.lastDirect

/-- An update of the provider with its callback, and a rule disabled by the API. -/
theorem routing_changes_stale : StaleAfter [.onUpdate "cn" 7, .task 0, .task 0] ∧ StaleAfter [.disableRules [(0, true)]] := by
  unfold StaleAfter
  decide +kernel

end AsterCore.Tunnel
