import AsterCore.DirectWatch
import AsterCore.Interleaving

namespace AsterCore.KernelDirect

open Option Prod

/-- `publishRequest`; its channel `done` is known by a number. `table` is what the sets were built from. -/
structure PublishRequest where
  sets : DecisionSets
  generation : Nat
  done : Nat
  table : Addr → Hosts

structure SinkCall where
  time : Nat
  request : PublishRequest

/-- Where `publishLoop` stands: in its select, before the check of `applyPublish`, before the sink, and after it. -/
inductive PublishLoop
  | idle
  | received (req : PublishRequest)
  | sinking (req : PublishRequest)
  | finishing (req : PublishRequest)

/-- A flush that has raised `flushSeq`: when it began and the number it made. -/
structure Began where
  time : Nat
  flushSeq : Nat

/-- A flush that has emptied the table, with the generation it waits for. -/
structure Cleared extends Began where
  generation : Nat

/-- The controller and what its goroutines share. Every step takes one unit of time. The sink calls and the two lists of
flushes record what happened. -/
structure Memory where
  controller : Controller
  applied : Nat := 0
  appliedRequest : Option PublishRequest := none
  loop : PublishLoop := .idle
  closedDone : List Nat := []
  time : Nat := 0
  sinkCalls : List SinkCall := []
  begun : List Began := []
  cleared : List Cleared := []

/-- The arguments of an `observe` call and what it reads from outside. The classifier and the fake addresses may change with
time; a nil classifier is none. -/
structure Observation where
  host : String
  answers : List DNSAnswer
  orders : Orders
  isFakeIP : Nat → Addr → Bool
  classifier : Option (Nat → String → Addr → Bool)
  refreshAt : Int
  observedAt : Int
  insertAt : Int

inductive Caller
  | observe
  | tick
  | flush (f : Cleared)

inductive Call
  | refresh (o : Observation)
  | load (o : Observation)
  | classify (o : Observation) (flushSeq : Nat) (answers : List DNSAnswer) (items : List Classified)
  | insert (o : Observation) (flushSeq : Nat) (items : List Classified)
  | tick (orders : Orders) (now : Int)
  | flush
  | clear (f : Began)
  | publish (caller : Caller) (req : PublishRequest)
  | send (caller : Caller) (req : PublishRequest)
  | waitDone (caller : Caller) (req : PublishRequest)
  | waitApplied (caller : Caller) (generation : Nat)
  | returned (caller : Caller) (time : Nat)

/-- What `commitPublish` does after `publish`; the expiry loop does not wait. -/
def afterPublish (s : Memory) (caller : Caller) (generation : Nat) : Call :=
  match caller with
  | .tick => .returned .tick s.time
  | caller => .waitApplied caller generation

def classifyAnswer (o : Observation) (time : Nat) (answer : DNSAnswer) : List Classified :=
  let addr := answer.addr.unmap
  if isUnsafeAddress (o.isFakeIP time) addr then []
  else [{ addr := addr, expires := o.observedAt + clampTTL answer.ttl
          direct := o.classifier.elim false fun classifier => classifier time o.host addr, call := time }]

/-- The next step of a call with the memory it leaves; none while it has to wait. -/
def nextStep (s : Memory) : Call → Option (Memory × Call)
  | .refresh o =>
    let (c, handled) := s.controller.refreshExistingLocked (o.isFakeIP s.time) o.host o.answers o.refreshAt
    some ({ s with controller := c }, if handled then .waitApplied .observe c.generation else .load o)
  | .load o =>
    if s.controller.closed then some (s, .returned .observe s.time)
    else some (s, .classify o s.controller.flushSeq o.answers [])
  | .classify o flushSeq [] items => some (s, .insert o flushSeq items)
  | .classify o flushSeq (answer :: answers) items =>
    some (s, .classify o flushSeq answers (items ++ classifyAnswer o s.time answer))
  | .insert o flushSeq items =>
    match s.controller.insertLocked o.orders flushSeq o.host items o.insertAt with
    | (c, none) => some ({ s with controller := c }, .returned .observe s.time)
    | (c, some (sets, generation, changed)) =>
      some ({ s with controller := c },
        if changed then .publish .observe ⟨sets, generation, s.time, c.stored⟩ else .waitApplied .observe generation)
  | .tick orders now =>
    match s.controller.tickLocked orders now with
    | (c, none) => some ({ s with controller := c }, .returned .tick s.time)
    | (c, some (sets, generation)) =>
      some ({ s with controller := c }, .publish .tick ⟨sets, generation, s.time, c.stored⟩)
  | .flush =>
    let f : Began := ⟨s.time, s.controller.flushSeq + 1⟩
    some ({ s with controller := { s.controller with flushSeq := f.flushSeq }, begun := f :: s.begun }, .clear f)
  | .clear f =>
    match s.controller.flushLocked with
    | (c, none) => some ({ s with controller := c }, .returned (.flush ⟨f, c.generation⟩) s.time)
    | (c, some (generation, changed)) =>
      some ({ s with controller := c, cleared := ⟨f, generation⟩ :: s.cleared },
        if changed then .publish (.flush ⟨f, generation⟩) ⟨⟨∅, ∅⟩, generation, s.time, c.stored⟩
        else .waitApplied (.flush ⟨f, generation⟩) generation)
  | .publish caller req =>
    if s.controller.closed ∨ req.generation ≠ s.controller.generation then some (s, afterPublish s caller req.generation)
    else some (s, .send caller req)
  | .send caller req =>
    match s.loop with
    | .idle =>
      some ({ s with loop := .received req },
        match caller with
        | .tick => .returned .tick s.time
        | caller => .waitDone caller req)
    | _ => none
  | .waitDone caller req => if req.done ∈ s.closedDone then some (s, .waitApplied caller req.generation) else none
  | .waitApplied caller generation => if generation ≤ s.applied then some (s, .returned caller s.time) else none
  | .returned _ _ => none

def loopStep (s : Memory) : Memory :=
  match s.loop with
  | .idle => s
  | .received req =>
    if ¬s.controller.closed ∧ req.generation = s.controller.generation then { s with loop := .sinking req }
    else { s with loop := .idle, closedDone := req.done :: s.closedDone }
  | .sinking req => { s with loop := .finishing req, sinkCalls := s.sinkCalls ++ [⟨s.time, req⟩] }
  | .finishing req =>
    let s := if ¬s.controller.closed ∧ req.generation = s.controller.generation then
      { s with applied := req.generation, appliedRequest := some req } else s
    { s with loop := .idle, closedDone := req.done :: s.closedDone }

def Memory.tick (s : Memory) : Memory := { s with time := s.time + 1 }

inductive Next (s : Memory) : Call → Memory → Call → Prop
  | refreshed (o : Observation) (c : Controller) :
      s.controller.refreshExistingLocked (o.isFakeIP s.time) o.host o.answers o.refreshAt = (c, true) →
      Next s (.refresh o) { s with controller := c } (.waitApplied .observe c.generation)
  | unknown (o : Observation) (c : Controller) :
      s.controller.refreshExistingLocked (o.isFakeIP s.time) o.host o.answers o.refreshAt = (c, false) →
      Next s (.refresh o) { s with controller := c } (.load o)
  | closed (o : Observation) : s.controller.closed = true → Next s (.load o) s (.returned .observe s.time)
  | load (o : Observation) : Next s (.load o) s (.classify o s.controller.flushSeq o.answers [])
  | classify (o : Observation) (flushSeq : Nat) (answer : DNSAnswer) (answers : List DNSAnswer) (items : List Classified) :
      Next s (.classify o flushSeq (answer :: answers) items) s (.classify o flushSeq answers (items ++ classifyAnswer o s.time answer))
  | classified (o : Observation) (flushSeq : Nat) (items : List Classified) :
      Next s (.classify o flushSeq [] items) s (.insert o flushSeq items)
  | refused (o : Observation) (flushSeq : Nat) (items : List Classified) (c : Controller) :
      s.controller.insertLocked o.orders flushSeq o.host items o.insertAt = (c, none) →
      Next s (.insert o flushSeq items) { s with controller := c } (.returned .observe s.time)
  | inserted (o : Observation) (flushSeq : Nat) (items : List Classified) (c : Controller) (sets : DecisionSets) (generation : Nat) :
      s.controller.insertLocked o.orders flushSeq o.host items o.insertAt = (c, some (sets, generation, false)) →
      Next s (.insert o flushSeq items) { s with controller := c } (.waitApplied .observe generation)
  | changed (o : Observation) (flushSeq : Nat) (items : List Classified) (c : Controller) (sets : DecisionSets) (generation : Nat) :
      s.controller.insertLocked o.orders flushSeq o.host items o.insertAt = (c, some (sets, generation, true)) →
      Next s (.insert o flushSeq items) { s with controller := c } (.publish .observe ⟨sets, generation, s.time, c.stored⟩)
  | ticked (orders : Orders) (now : Int) (c : Controller) : s.controller.tickLocked orders now = (c, none) →
      Next s (.tick orders now) { s with controller := c } (.returned .tick s.time)
  | expired (orders : Orders) (now : Int) (c : Controller) (sets : DecisionSets) (generation : Nat) :
      s.controller.tickLocked orders now = (c, some (sets, generation)) →
      Next s (.tick orders now) { s with controller := c } (.publish .tick ⟨sets, generation, s.time, c.stored⟩)
  | flush : Next s .flush
      { s with
        controller := { s.controller with flushSeq := s.controller.flushSeq + 1 }
        begun := ⟨s.time, s.controller.flushSeq + 1⟩ :: s.begun }
      (.clear ⟨s.time, s.controller.flushSeq + 1⟩)
  | uncleared (f : Began) (c : Controller) : s.controller.flushLocked = (c, none) →
      Next s (.clear f) { s with controller := c } (.returned (.flush ⟨f, c.generation⟩) s.time)
  | cleared (f : Began) (c : Controller) (generation : Nat) (changed : Bool) :
      s.controller.flushLocked = (c, some (generation, changed)) →
      Next s (.clear f) { s with controller := c, cleared := ⟨f, generation⟩ :: s.cleared }
        (if changed then .publish (.flush ⟨f, generation⟩) ⟨⟨∅, ∅⟩, generation, s.time, c.stored⟩
          else .waitApplied (.flush ⟨f, generation⟩) generation)
  | outdated (caller : Caller) (req : PublishRequest) :
      Next s (.publish caller req) s (afterPublish s caller req.generation)
  | publish (caller : Caller) (req : PublishRequest) : Next s (.publish caller req) s (.send caller req)
  | sentTick (req : PublishRequest) : s.loop = .idle →
      Next s (.send .tick req) { s with loop := .received req } (.returned .tick s.time)
  | sent (caller : Caller) (req : PublishRequest) : s.loop = .idle → caller ≠ .tick →
      Next s (.send caller req) { s with loop := .received req } (.waitDone caller req)
  | waited (caller : Caller) (req : PublishRequest) : Next s (.waitDone caller req) s (.waitApplied caller req.generation)
  | returned (caller : Caller) (generation : Nat) : generation ≤ s.applied →
      Next s (.waitApplied caller generation) s (.returned caller s.time)

theorem next_of_nextStep {s s' : Memory} {t t' : Call} (next : nextStep s t = some (s', t')) : Next s t s' t' := by
  cases t with
  | refresh o =>
    simp only [nextStep] at next
    generalize hr : s.controller.refreshExistingLocked (o.isFakeIP s.time) o.host o.answers o.refreshAt = r at next
    obtain ⟨c, handled⟩ := r
    cases next
    cases handled with
    | true => exact .refreshed o c hr
    | false => exact .unknown o c hr
  | load o =>
    simp only [nextStep] at next
    split at next <;> cases next
    next hc => exact .closed o hc
    · exact .load o
  | classify o flushSeq answers items =>
    cases answers with
    | nil =>
      cases next
      exact .classified o flushSeq items
    | cons answer answers =>
      cases next
      exact .classify o flushSeq answer answers items
  | insert o flushSeq items =>
    simp only [nextStep] at next
    split at next <;> cases next
    next c hr => exact .refused o flushSeq items c hr
    next c sets generation changed hr =>
      cases changed with
      | true => exact .changed o flushSeq items c sets generation hr
      | false => exact .inserted o flushSeq items c sets generation hr
  | tick orders now =>
    simp only [nextStep] at next
    split at next <;> cases next
    next c hr => exact .ticked orders now c hr
    next c sets generation hr => exact .expired orders now c sets generation hr
  | flush =>
    cases next
    exact .flush
  | clear f =>
    simp only [nextStep] at next
    split at next <;> cases next
    next c hr => exact .uncleared f c hr
    next c generation changed hr => exact .cleared f c generation changed hr
  | publish caller req =>
    simp only [nextStep] at next
    split at next <;> cases next
    · exact .outdated caller req
    · exact .publish caller req
  | send caller req =>
    simp only [nextStep] at next
    split at next <;> cases next
    next hi =>
      cases caller with
      | tick => exact .sentTick req hi
      | observe => exact .sent .observe req hi (by rintro ⟨⟩)
      | flush f => exact .sent (.flush f) req hi (by rintro ⟨⟩)
  | waitDone caller req =>
    simp only [nextStep] at next
    split at next <;> cases next
    exact .waited caller req
  | waitApplied caller generation =>
    simp only [nextStep] at next
    split at next <;> cases next
    next hre => exact .returned caller generation hre
  | returned => cases next

/-- Only the classification loop holds the lock. -/
def Call.classifying : Call → Bool
  | .classify _ _ _ _ => true
  | _ => false

/-- The calls that may be made: the lock is `classifierMu`. A step is atomic where the source holds `mu`. -/
def publishing : Program Memory Call Memory Unit Unit where
  next := nextStep
  perform := fun _ s _ => s.tick
  environment := fun _ s => (loopStep s).tick
  entry := fun _ t => match t with
    | .refresh _ | .tick _ _ | .flush => true
    | _ => false
  held := fun t => if t.classifying then [()] else []
  takes := fun t => match t with
    | .load _ => [()]
    | _ => []
  clash := fun _ _ => true
  clash_symm := fun _ _ => rfl
  entry_held := by
    intro _ t entry
    cases t <;> first | rfl | cases entry
  next_held := by
    intro s t a _ next l mem
    cases next_of_nextStep next with
    | load => exact .inr List.mem_cons_self
    | classify => exact .inl List.mem_cons_self
    | cleared _ _ _ changed => cases changed <;> cases mem
    | outdated caller => cases caller <;> cases mem
    | _ => cases mem

def Memory.start (maxEntries : Nat) : Memory := { controller := register maxEntries }

end AsterCore.KernelDirect
