import AsterCore.TrafficSteps
import AsterCore.Interleaving

namespace AsterCore

/-- The locks that are held across steps. The record gate is a read-write lock for each runtime. -/
inductive Lock
  | configureMu
  | mu
  | reportsMu
  | bindMu (s : Nat)
  | recordGateRead (runtime : Nat)
  | recordGateWrite (runtime : Nat)
  deriving DecidableEq

def Lock.clash : Lock → Lock → Bool
  | .recordGateRead r, .recordGateWrite r' | .recordGateWrite r, .recordGateRead r' => r == r'
  | .recordGateRead _, .recordGateRead _ => false
  | a, b => a == b

inductive Rest (π ρ : Type)
  | more (pc : π)
  | done (result : ρ)

def Rest.Post {π ρ : Type} (more : π → Prop) (done : ρ → Prop) : Rest π ρ → Prop
  | .more pc => more pc
  | .done result => done result

inductive ScanPc
  | clock
  | refresh (now : Nat)
  | add

/-- The loop of `bindSession` over the policies that match. -/
structure BindSessionPc where
  runtime : RuntimeState
  counted : List RuntimePolicy
  todo : List RuntimePolicy
  pc : ScanPc

def bindSessionStart (lib : Stdlib) (runtime : RuntimeState) (flow : Flow) : BindSessionPc :=
  ⟨runtime, [], runtime.matched lib flow, .clock⟩

def BindSessionPc.next (s : Shared) (scan : BindSessionPc) : Action × Rest BindSessionPc SessionBinding :=
  match scan.todo, scan.pc with
  | [], _ => (.look, .done (newBinding scan.runtime scan.counted))
  | _ :: _, .clock => (.look, .more { scan with pc := .refresh s.clock })
  | p :: _, .refresh now => (.refresh p now, .more { scan with pc := .add })
  | p :: todo, .add =>
    (.active 1 p, .more { scan with counted := scan.counted ++ [p], todo := todo, pc := .clock })

/-- The report calls. `load` reads the runtime; `recordReportConnections` reads the clock itself,
the others are given the time of the transfer. -/
inductive RecordReportPc
  | load (time : Option Nat)
  | clock
  | loop (now : Nat) (keys : List String)
  | held (now : Nat) (key : String) (ref : Nat) (keys : List String)

namespace RecordReportPc

def next (increment : ReportIncrement) (keys : List String) (s : Shared) :
    RecordReportPc → Action × Rest RecordReportPc Unit
  | .load time =>
    if s.manager.runtime.reportsEnabled then
      (.look, .more (time.elim .clock (fun now => .loop now keys)))
    else (.look, .done ())
  | .clock => (.look, .more (.loop s.clock keys))
  | .loop _ [] => (.look, .done ())
  | .loop now (key :: keys) =>
    (.acquire key, .more ((s.manager.table.reportSeries key).2.elim (.loop now keys) (.held now key · keys)))
  | .held now key ref keys => (.bump key ref now increment, .more (.loop now keys))

def takes : RecordReportPc → List Lock
  | .loop _ (_ :: _) => [.reportsMu]
  | _ => []

end RecordReportPc

inductive CurrentBindingPc
  | closed
  | runtime
  | compare (runtime : RuntimeState)
  | lock
  | closedLocked
  | runtimeLocked
  | compareLocked (runtime : RuntimeState)
  | bindSession (previous : Option SessionBinding) (scan : BindSessionPc)
  | store (previous : Option SessionBinding) (next : SessionBinding)
  | release (todo : List RuntimePolicy) (next : SessionBinding)
  | report (next : SessionBinding) (pc : RecordReportPc)

def SessionBinding.isFor (runtime : RuntimeState) (binding : SessionBinding) : Bool :=
  binding.runtime.ref == runtime.ref

namespace CurrentBindingPc

def next (lib : Stdlib) (k : Nat) (session : Session) (s : Shared) :
    CurrentBindingPc → Action × Rest CurrentBindingPc (Option SessionBinding)
  | .closed => (.look, if session.closed then .done none else .more .runtime)
  | .runtime => (.look, .more (.compare s.manager.runtime))
  | .compare loaded =>
    (.look, if session.binding.any (·.isFor loaded) then .done session.binding else .more .lock)
  | .lock => (.look, .more .closedLocked)
  | .closedLocked => (.look, if session.closed then .done none else .more .runtimeLocked)
  | .runtimeLocked => (.look, .more (.compareLocked s.manager.runtime))
  | .compareLocked loaded =>
    (.look, if session.binding.any (·.isFor loaded) then .done session.binding
      else .more (.bindSession session.binding (bindSessionStart lib loaded session.flow)))
  | .bindSession previous scan =>
    match scan.next s with
    | (a, .more scan) => (a, .more (.bindSession previous scan))
    | (a, .done next) => (a, .more (.store previous next))
  | .store previous next => (.bind k (some next), .more (.release (previous.elim [] SessionBinding.policies) next))
  | .release (p :: todo) next => (.active (-1) p, .more (.release todo next))
  | .release [] next => (.look, .more (.report next (.load none)))
  | .report next pc =>
    match pc.next (.connections 1) next.reportKeys s with
    | (a, .more pc) => (a, .more (.report next pc))
    | (a, .done ()) => (a, .done (some next))

def held (k : Nat) : CurrentBindingPc → List Lock
  | .closed | .runtime | .compare _ | .lock => []
  | _ => [.bindMu k]

def takes (k : Nat) : CurrentBindingPc → List Lock
  | .lock => [.bindMu k]
  | .report _ pc => pc.takes
  | _ => []

end CurrentBindingPc

inductive OpenPc
  | runtime
  | bindSession (scan : BindSessionPc)
  | report (binding : SessionBinding) (pc : RecordReportPc)
  | enroll (binding : SessionBinding)
  | returned (session : Option Nat)

namespace OpenPc

/-- `Manager.Open`. Nobody else knows the session before the call returns it. -/
def next (lib : Stdlib) (flow : Flow) (s : Shared) : OpenPc → Option (Action × OpenPc)
  | .runtime => some (.look, .bindSession (bindSessionStart lib s.manager.runtime flow))
  | .bindSession scan =>
    match scan.next s with
    | (a, .more scan) => some (a, .bindSession scan)
    | (a, .done binding) =>
      some (a, if binding.policies.isEmpty then .returned none else .report binding (.load none))
  | .report binding pc =>
    match pc.next (.connections 1) binding.reportKeys s with
    | (a, .more pc) => some (a, .report binding pc)
    | (a, .done ()) => some (a, .enroll binding)
  | .enroll binding => some (.enroll flow binding, .returned (some s.manager.sessions.length))
  | .returned _ => none

def takes : OpenPc → List Lock
  | .report _ pc => pc.takes
  | _ => []

end OpenPc

/-- `returned` carries the binding the transfer was counted for. -/
inductive RecordPc
  | start
  | currentBinding (pc : CurrentBindingPc)
  | gate (binding : SessionBinding)
  | gateClosed (binding : SessionBinding)
  | gateRuntime (binding : SessionBinding)
  | clock (binding : SessionBinding)
  | count (binding : SessionBinding) (now : Nat) (crossed : Bool) (counted todo : List RuntimePolicy)
  | report (binding : SessionBinding) (now : Nat) (crossed : Bool) (pc : RecordReportPc)
  | dirty (binding : SessionBinding) (now : Nat) (crossed : Bool)
  | exceeded (binding : SessionBinding) (pc : RecordReportPc)
  | returned (binding : Option SessionBinding)

namespace RecordPc

def next (lib : Stdlib) (k : Nat) (session : Session) (direction : Direction) (bytes : Int64) (s : Shared) :
    RecordPc → Option (Action × RecordPc)
  | .start => some (.look, if bytes ≤ 0 then .returned none else .currentBinding .closed)
  | .currentBinding pc =>
    match pc.next lib k session s with
    | (a, .more pc) => some (a, .currentBinding pc)
    | (a, .done binding) => some (a, binding.elim (.returned none) .gate)
  | .gate binding => some (.look, .gateClosed binding)
  | .gateClosed binding => some (.look, if session.closed then .currentBinding .closed else .gateRuntime binding)
  | .gateRuntime binding =>
    if binding.isFor s.manager.runtime then some (.pass, .clock binding) else some (.look, .currentBinding .closed)
  | .clock binding => some (.look, .count binding s.clock false [] binding.policies)
  | .count binding now crossed _ [] =>
    some (.look, if binding.reportKeys.isEmpty then .dirty binding now crossed
      else .report binding now crossed (.load (some now)))
  | .count binding now crossed counted (p :: todo) =>
    some (.count p direction bytes now,
      .count binding now (crossed || (p.record direction bytes now (s.manager.heap p.state)).2) (counted ++ [p]) todo)
  | .report binding now crossed pc =>
    match pc.next (.transfer direction bytes) binding.reportKeys s with
    | (a, .more pc) => some (a, .report binding now crossed pc)
    | (a, .done ()) => some (a, .dirty binding now crossed)
  | .dirty binding now crossed =>
    some (.dirty true, if crossed && !binding.reportKeys.isEmpty then .exceeded binding (.load (some now))
      else .returned (some binding))
  | .exceeded binding pc =>
    match pc.next .exceeded binding.reportKeys s with
    | (a, .more pc) => some (a, .exceeded binding pc)
    | (a, .done ()) => some (a, .returned (some binding))
  | .returned _ => none

def held (k : Nat) : RecordPc → List Lock
  | .start | .gate _ | .returned _ => []
  | .currentBinding pc => pc.held k
  | .gateClosed binding | .gateRuntime binding | .clock binding | .count binding _ _ _ _
  | .report binding _ _ _ | .dirty binding _ _ | .exceeded binding _ => [.recordGateRead binding.runtime.ref]

def takes (k : Nat) : RecordPc → List Lock
  | .currentBinding pc => pc.takes k
  | .gate binding => [.recordGateRead binding.runtime.ref]
  | .report _ _ _ pc | .exceeded _ pc => pc.takes
  | _ => []

end RecordPc

inductive WaitPc
  | currentBinding (pc : CurrentBindingPc)
  | clock (binding : SessionBinding)
  | test (now : Nat) (todo : List RuntimePolicy)
  | refresh (now : Nat) (p : RuntimePolicy) (todo : List RuntimePolicy)
  | returned

namespace WaitPc

/-- The part of `Wait`, `AllowPacket` and `PortalURL` that uses the shared memory. -/
def next (lib : Stdlib) (k : Nat) (session : Session) (served : Nat) (s : Shared) :
    WaitPc → Option (Action × WaitPc)
  | .currentBinding pc =>
    match pc.next lib k session s with
    | (a, .more pc) => some (a, .currentBinding pc)
    | (a, .done binding) => some (a, binding.elim .returned .clock)
  | .clock binding => some (.look, .test s.clock (binding.policies.take served))
  | .test _ [] => some (.look, .returned)
  | .test now (p :: todo) =>
    some (.look, if (s.manager.heap p.state).overQuota then .refresh now p todo else .test now todo)
  | .refresh now p todo => some (.refresh p now, .test now todo)
  | .returned => none

def held (k : Nat) : WaitPc → List Lock
  | .currentBinding pc => pc.held k
  | _ => []

def takes (k : Nat) : WaitPc → List Lock
  | .currentBinding pc => pc.takes k
  | _ => []

end WaitPc

inductive ClosePc
  | lock
  | mark
  | swap
  | release (todo : List RuntimePolicy)
  | returned

namespace ClosePc

def next (k : Nat) (session : Session) : ClosePc → Option (Action × ClosePc)
  | .lock => some (.look, .mark)
  | .mark => if session.closed then some (.look, .returned) else some (.close k, .swap)
  | .swap => some (.bind k none, .release (session.binding.elim [] SessionBinding.policies))
  | .release (p :: todo) => some (.active (-1) p, .release todo)
  | .release [] => some (.look, .returned)
  | .returned => none

def held (k : Nat) : ClosePc → List Lock
  | .lock | .returned => []
  | _ => [.bindMu k]

def takes (k : Nat) : ClosePc → List Lock
  | .lock => [.bindMu k]
  | _ => []

end ClosePc

/-- `flushLocked`, with the loops of `cleanupOrphansLocked` and `rollupAndPruneLocked` and the
rounds of `trimReportsToStoreLimitLocked`. -/
inductive FlushLockedPc
  | start
  | clock
  | config (now : Nat)
  | clean (reports : ReportsConfig) (now : Nat) (todo : List (Σ _ : String, Nat))
  | lock (reports : ReportsConfig) (now : Nat)
  | rollup (reports : ReportsConfig) (now : Nat) (todo : List (Σ _ : String, Nat))
  | save (now : Nat)
  | trim (now i : Nat)
  | trimSave (now i : Nat)
  | failed (e : ManagerError)
  | checkpoint (now : Nat)

namespace FlushLockedPc

def next (env : FlushEnv) (s : Shared) : FlushLockedPc → Action × Rest FlushLockedPc (Except ManagerError Unit)
  | .start =>
    if s.manager.store.isNone || !s.manager.dirty then (.look, .done (.ok ())) else (.dirty false, .more .clock)
  | .clock => (.look, .more (.config s.clock))
  | .config now =>
    (.look, .more (s.manager.runtime.config.elim (.save now)
      (fun config => .clean config.reports now s.manager.states.entries)))
  | .clean reports now [] => (.look, .more (.lock reports now))
  | .clean reports now (e :: todo) =>
    (if (s.manager.heap e.2).isOrphan (orphanCutoff now reports.orphanRetention) then .dropState e.1 else .look,
      .more (.clean reports now todo))
  | .lock reports now => (.look, .more (.rollup reports now s.manager.table.reports.entries))
  | .rollup _ now [] => (.look, .more (.save now))
  | .rollup reports now (e :: todo) => (.rollup reports now e.1 e.2, .more (.rollup reports now todo))
  | .save now =>
    match env.save with
    | .failed => (.look, .more (.failed .io))
    | .backupFailed => (.save (unixOf now), .more (.failed .io))
    | .saved => (.save (unixOf now), .more (.checkpoint now))
    | .overLimit => (.save (unixOf now), .more (.trim now 0))
  | .trim now i =>
    if s.manager.table.reports.entries.isEmpty then (.look, .more (.failed .storeLimit))
    else (.dropOldest, .more (.trimSave now i))
  | .trimSave now i =>
    match (env.round i).save with
    | .failed => (.look, .more (.failed .io))
    | .backupFailed => (.save (unixOf now), .more (.failed .io))
    | _ =>
      (.save (unixOf now),
        if !(env.round i).compacted then .more (.failed .io)
        else if (env.round i).size ≤ s.manager.maxStoreSize then .more (.checkpoint now)
        else .more (.trim now (i + 1)))
  | .failed e => (.dirty true, .done (.error e))
  | .checkpoint now => (.checkpoint now, .done (.ok ()))

def held : FlushLockedPc → List Lock
  | .rollup _ _ _ => [.reportsMu]
  | _ => []

def takes : FlushLockedPc → List Lock
  | .lock _ _ | .save _ | .trim _ _ | .trimSave _ _ => [.reportsMu]
  | _ => []

end FlushLockedPc

inductive FlushPc
  | lock
  | flushLocked (pc : FlushLockedPc)
  | returned (result : Except ManagerError Unit)

namespace FlushPc

def next (env : FlushEnv) (s : Shared) : FlushPc → Option (Action × FlushPc)
  | .lock => some (.look, .flushLocked .start)
  | .flushLocked pc =>
    match pc.next env s with
    | (a, .more pc) => some (a, .flushLocked pc)
    | (a, .done result) => some (a, .returned result)
  | .returned _ => none

def held : FlushPc → List Lock
  | .flushLocked pc => .mu :: pc.held
  | _ => []

def takes : FlushPc → List Lock
  | .lock => [.mu]
  | .flushLocked pc => pc.takes
  | .returned _ => []

end FlushPc

/-- `configure`: first the staging, then the commit behind the gate of the old runtime. -/
inductive ConfigurePc
  | lock
  | start
  | stageMaps (config : Config)
  | openStage (config : Config) (maps : StageMaps)
  | fillStage (config : Config) (now : Nat) (stage : Stage) (todo : List Policy)
  | cleanStage (config : Config) (now : Nat) (stage : Stage)
  | oldRuntime (stage : Stage)
  | gate (stage : Stage) (old : RuntimeState)
  | mu (stage : Stage) (old : RuntimeState)
  | flushLocked (stage : Stage) (old : RuntimeState) (pc : FlushLockedPc)
  | publishMaps (stage : Stage) (old : RuntimeState)
  | clock (stage : Stage) (old : RuntimeState)
  | touch (stage : Stage) (old : RuntimeState) (now : Nat) (todo : List Nat)
  | publish (stage : Stage) (old : RuntimeState)
  | dirty (stage : Stage) (old : RuntimeState)
  | returned (result : Except ManagerError Unit)

namespace ConfigurePc

def next (lib : Stdlib) (config : Option Config) (env : ConfigureEnv) (s : Shared) :
    ConfigurePc → Option (Action × ConfigurePc)
  | .lock => some (.look, .start)
  | .start =>
    match config.filter Config.enabled with
    | none => some (.stageRuntime, .oldRuntime s.manager.emptyStage.2)
    | some config => some (.look, .stageMaps config)
  | .stageMaps config =>
    some (.stageMaps config env,
      match (s.manager.stageMaps lib config env).2 with
      | .error e => .returned (.error (.staging e))
      | .ok maps => .openStage config maps)
  | .openStage config maps =>
    some (.stageRuntime, .fillStage config s.clock (s.manager.openStage config maps) config.policies)
  | .fillStage config now stage (spec :: todo) =>
    some (.stagePolicy now stage spec,
      .fillStage config now (Manager.stagePolicy lib now (s.manager, stage) spec).2 todo)
  | .fillStage config now stage [] => some (.look, .cleanStage config now stage)
  | .cleanStage config now stage =>
    some (.look,
      match env.portal with
      | .error e => .returned (.error (.staging ("start traffic-control portal: " ++ e)))
      | .ok () => .oldRuntime (s.manager.cleanStage config now stage))
  | .oldRuntime stage => some (.look, .gate stage s.manager.runtime)
  | .gate stage old => some (.look, .mu stage old)
  | .mu stage old => some (.look, .flushLocked stage old .start)
  | .flushLocked stage old pc =>
    match pc.next env.flush s with
    | (a, .more pc) => some (a, .flushLocked stage old pc)
    | (a, .done (.error e)) => some (a, .returned (.error e))
    | (a, .done (.ok ())) => some (a, .publishMaps stage old)
  | .publishMaps stage old => some (.publishMaps stage, .clock stage old)
  | .clock stage old => some (.look, .touch stage old s.clock stage.touched)
  | .touch stage old now (ref :: todo) => some (.touch ref now, .touch stage old now todo)
  | .touch stage old _ [] => some (.look, .publish stage old)
  | .publish stage old => some (.publish stage.runtime, .dirty stage old)
  | .dirty stage _ => some (.dirty stage.config.isSome, .returned (.ok ()))
  | .returned _ => none

def held : ConfigurePc → List Lock
  | .lock | .returned _ => []
  | .start | .stageMaps _ | .openStage _ _ | .fillStage _ _ _ _ | .cleanStage _ _ _ | .oldRuntime _ | .gate _ _ =>
    [.configureMu]
  | .mu _ old => [.configureMu, .recordGateWrite old.ref]
  | .flushLocked _ old pc => .configureMu :: .recordGateWrite old.ref :: .mu :: pc.held
  | .publishMaps _ old | .clock _ old | .touch _ old _ _ | .publish _ old | .dirty _ old =>
    [.configureMu, .recordGateWrite old.ref, .mu]

def takes : ConfigurePc → List Lock
  | .lock => [.configureMu]
  | .stageMaps _ => [.mu, .reportsMu]
  | .gate _ old => [.recordGateWrite old.ref]
  | .mu _ _ => [.mu]
  | .flushLocked _ _ pc => pc.takes
  | .publishMaps _ _ => [.reportsMu]
  | _ => []

end ConfigurePc

inductive Call
  | opening (flow : Flow) (pc : OpenPc)
  | recording (k : Nat) (direction : Direction) (bytes : Int64) (pc : RecordPc)
  | waiting (k served : Nat) (pc : WaitPc)
  | closing (k : Nat) (pc : ClosePc)
  | configuring (config : Option Config) (env : ConfigureEnv) (pc : ConfigurePc)
  | flushing (env : FlushEnv) (pc : FlushPc)

namespace Call

def next (lib : Stdlib) (s : Shared) : Call → Option (Action × Call)
  | .opening flow pc => (pc.next lib flow s).map (Prod.map id (.opening flow))
  | .recording k direction bytes pc =>
    match s.manager.sessions[k]? with
    | none => none
    | some session => (pc.next lib k session direction bytes s).map (Prod.map id (.recording k direction bytes))
  | .waiting k served pc =>
    match s.manager.sessions[k]? with
    | none => none
    | some session => (pc.next lib k session served s).map (Prod.map id (.waiting k served))
  | .closing k pc =>
    match s.manager.sessions[k]? with
    | none => none
    | some session => (pc.next k session).map (Prod.map id (.closing k))
  | .configuring config env pc => (pc.next lib config env s).map (Prod.map id (.configuring config env))
  | .flushing env pc => (pc.next env s).map (Prod.map id (.flushing env))

def held : Call → List Lock
  | .opening _ _ => []
  | .recording k _ _ pc => pc.held k
  | .waiting k _ pc => pc.held k
  | .closing k pc => pc.held k
  | .configuring _ _ pc => pc.held
  | .flushing _ pc => pc.held

def takes : Call → List Lock
  | .opening _ pc => pc.takes
  | .recording k _ _ pc => pc.takes k
  | .waiting k _ pc => pc.takes k
  | .closing k pc => pc.takes k
  | .configuring _ _ pc => pc.takes
  | .flushing _ pc => pc.takes

/-- How a call starts; it can only be made on a session that `Open` has returned. -/
def entry (s : Shared) : Call → Bool
  | .opening _ .runtime | .configuring _ _ .lock | .flushing _ .lock => true
  | .recording k _ _ .start | .waiting k _ (.currentBinding .closed) | .closing k .lock =>
    k < s.manager.sessions.length
  | _ => false

end Call

end AsterCore
