import AsterCore.TrafficConfigure

namespace AsterCore

/-- What an atomic step does to the shared memory: one access under a lock or one atomic access. -/
inductive Action
  | look
  | refresh (p : RuntimePolicy) (now : Nat)
  | active (delta : Int) (p : RuntimePolicy)
  | acquire (key : String)
  | bump (key : String) (ref now : Nat) (increment : ReportIncrement)
  | enroll (flow : Flow) (binding : SessionBinding)
  | bind (s : Nat) (binding : Option SessionBinding)
  | close (s : Nat)
  | pass
  | count (p : RuntimePolicy) (direction : Direction) (bytes : Int64) (now : Nat)
  | dirty (flag : Bool)
  | stageMaps (config : Config) (env : ConfigureEnv)
  | stageRuntime
  | stagePolicy (now : Nat) (stage : Stage) (spec : Policy)
  | publishMaps (stage : Stage)
  | touch (ref now : Nat)
  | publish (runtime : RuntimeState)
  | dropState (id : String)
  | rollup (reports : ReportsConfig) (now : Nat) (key : String) (ref : Nat)
  | save (checkpoint : Int)
  | dropOldest
  | checkpoint (now : Nat)

/-- A transfer that a `Record` call has counted, with the runtime that was current then. -/
structure LedgerEntry where
  call : Nat
  policy : RuntimePolicy
  direction : Direction
  bytes : Int64
  runtime : RuntimeState

structure ReportEntry where
  key : String
  ref : Nat
  now : Nat
  increment : ReportIncrement
  deriving DecidableEq

/-- The memory all calls share. `passed`, `ledger` and `written` are history: which `Record` calls
have passed the record gate and under which runtime, what they have counted, and what has been
added to report series. -/
structure Shared where
  clock : Nat := 0
  manager : Manager := {}
  passed : List (Nat × RuntimeState) := []
  ledger : List LedgerEntry := []
  written : List ReportEntry := []

namespace Manager

def modifySession (m : Manager) (s : Nat) (f : Session → Session) : Manager :=
  { m with sessions := m.sessions.modify s f }

def publishMaps (stage : Stage) (m : Manager) : Manager :=
  { m with
    store := m.stagedStore stage
    states := stage.states
    table := { m.table with reports := stage.reports }
    lastCheckpoint := stage.checkpoint }

def publishRuntime (runtime : RuntimeState) (m : Manager) : Manager :=
  { m with revision := m.revision + 1, runtime := { runtime with generation := m.revision + 1 } }

def act (lib : Stdlib) (m : Manager) : Action → Manager
  | .look | .pass => m
  | .refresh p now => m.refreshQuota now p
  | .active delta p => m.addActive delta p
  | .acquire key => { m with table := (m.table.reportSeries key).1 }
  | .bump _ ref now increment => { m with table := m.table.bumpSeries ref now increment }
  | .enroll flow binding => { m with sessions := m.sessions ++ [⟨flow, some binding, false⟩] }
  | .bind s binding => m.modifySession s (fun session => { session with binding := binding })
  | .close s => m.modifySession s (fun session => { session with closed := true })
  | .count p direction bytes now => m.modifyState p.state (fun state => (p.record direction bytes now state).1)
  | .dirty flag => { m with dirty := flag }
  | .stageMaps config env => (m.stageMaps lib config env).1
  | .stageRuntime => { m with freshRuntime := m.freshRuntime + 1 }
  | .stagePolicy now stage spec => (stagePolicy lib now (m, stage) spec).1
  | .publishMaps stage => m.publishMaps stage
  | .touch ref now => m.modifyState ref (fun state => { state with lastSeen := unixOf now })
  | .publish runtime => m.publishRuntime runtime
  | .dropState id => { m with states := m.states.erase id }
  | .rollup reports now key ref => { m with table := m.table.rollupEntry reports now key ref }
  | .save checkpoint => m.saveStore checkpoint
  | .dropOldest => { m with table := m.table.dropOldest }
  | .checkpoint now => { m with lastCheckpoint := unixOf now }

end Manager

namespace Shared

def perform (lib : Stdlib) (call : Nat) (a : Action) (s : Shared) : Shared :=
  { s with
    manager := s.manager.act lib a
    passed := match a with
      | .pass => s.passed ++ [(call, s.manager.runtime)]
      | _ => s.passed
    ledger := match a with
      | .count p direction bytes _ => s.ledger ++ [⟨call, p, direction, bytes, s.manager.runtime⟩]
      | _ => s.ledger
    written := match a with
      | .bump key ref now increment => s.written ++ [⟨key, ref, now, increment⟩]
      | _ => s.written }

end Shared

end AsterCore
