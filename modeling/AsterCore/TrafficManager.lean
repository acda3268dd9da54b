import AsterCore.TrafficSelect
import AsterCore.TrafficStore

namespace AsterCore

structure Session where
  flow : Flow
  binding : Option SessionBinding
  closed : Bool := false

/-- The open database: its path, its size limit and what the file holds. -/
structure Store where
  path : String
  maxSize : Int64
  file : StoreFile

/-- The memory of the manager. Policy states and sessions are used through pointers: `states`
maps an identifier to a pointer into `heap`, a session is its position in `sessions`. -/
structure Manager where
  runtime : RuntimeState := ⟨0, none, [], 0⟩
  freshRuntime : Nat := 1
  states : GoMap String Nat := ∅
  heap : Nat → PolicyState := fun _ => newPolicyState "" "" 0 0
  freshState : Nat := 0
  table : ReportTable := {}
  store : Option Store := none
  revision : UInt64 := 0
  lastCheckpoint : Int := 0
  dirty : Bool := false
  sessions : List Session := []

namespace Manager

def modifyState (m : Manager) (ref : Nat) (f : PolicyState → PolicyState) : Manager :=
  { m with heap := Function.update m.heap ref (f (m.heap ref)) }

def refreshQuota (now : Nat) (m : Manager) (p : RuntimePolicy) : Manager :=
  m.modifyState p.state (p.refreshQuota now)

def addActive (delta : Int) (m : Manager) (p : RuntimePolicy) : Manager :=
  m.modifyState p.state (fun state => { state with active := state.active + delta })

/-- One round of the loop in `bindSession` for a policy that matches. -/
def bindPolicy (now : Nat) (m : Manager) (p : RuntimePolicy) : Manager :=
  (m.refreshQuota now p).addActive 1 p

def bindSession (lib : Stdlib) (runtime : RuntimeState) (flow : Flow) (now : Nat) (m : Manager) :
    Manager × SessionBinding :=
  let matched := runtime.matched lib flow
  (matched.foldl (bindPolicy now) m, newBinding runtime matched)

def releaseSessionBinding (m : Manager) : Option SessionBinding → Manager
  | none => m
  | some binding => binding.policies.foldl (addActive (-1)) m

def reportsConfig (m : Manager) : Option ReportsConfig := m.runtime.config.map Config.reports

def recordReports (keys : List String) (direction : Direction) (bytes : Int64) (now : Nat) (m : Manager) :
    Manager :=
  { m with table := m.table.recordReports m.reportsConfig keys direction bytes now }

def recordReportConnections (keys : List String) (count : Int64) (now : Nat) (m : Manager) : Manager :=
  { m with table := m.table.recordReportConnections m.reportsConfig keys count now }

def recordReportExceeded (keys : List String) (now : Nat) (m : Manager) : Manager :=
  { m with table := m.table.recordReportExceeded m.reportsConfig keys now }

/-- `Manager.Open`; without a matching policy there is no session. -/
def openSession (lib : Stdlib) (flow : Flow) (now : Nat) (m : Manager) : Manager × Option Nat :=
  let (m, binding) := m.bindSession lib m.runtime flow now
  if binding.policies.isEmpty then (m, none)
  else
    let session := m.sessions.length
    let m := { m with sessions := m.sessions ++ [Session.mk flow (some binding) false] }
    (m.recordReportConnections binding.reportKeys 1 now, some session)

def setSession (m : Manager) (s : Nat) (session : Session) : Manager :=
  { m with sessions := m.sessions.set s session }

def currentBinding (lib : Stdlib) (s : Nat) (now : Nat) (m : Manager) : Manager × Option SessionBinding :=
  match m.sessions[s]? with
  | none => (m, none)
  | some session =>
    if session.closed then (m, none)
    else if session.binding.any (fun binding => binding.runtime.ref == m.runtime.ref) then (m, session.binding)
    else
      let (m, next) := m.bindSession lib m.runtime session.flow now
      let m := m.setSession s { session with binding := some next }
      let m := m.releaseSessionBinding session.binding
      (m.recordReportConnections next.reportKeys 1 now, some next)

/-- The call of `policy.record` in the loop of `Session.Record`. -/
def recordPolicy (direction : Direction) (bytes : Int64) (now : Nat) (acc : Manager × Bool)
    (p : RuntimePolicy) : Manager × Bool :=
  let after := p.record direction bytes now (acc.1.heap p.state)
  (acc.1.modifyState p.state (fun _ => after.1), acc.2 || after.2)

/-- `Session.Record` after it has passed the record gate. -/
def recordBound (binding : SessionBinding) (direction : Direction) (bytes : Int64) (now : Nat) (m : Manager) :
    Manager :=
  let counted := binding.policies.foldl (recordPolicy direction bytes now) (m, false)
  let m := if binding.reportKeys.isEmpty then counted.1
    else counted.1.recordReports binding.reportKeys direction bytes now
  let m := { m with dirty := true }
  if counted.2 && !binding.reportKeys.isEmpty then m.recordReportExceeded binding.reportKeys now else m

/-- `Session.Record`. No other call runs in between here, so the gate is passed at the first try. -/
def record (lib : Stdlib) (s : Nat) (direction : Direction) (bytes : Int64) (now : Nat) (m : Manager) : Manager :=
  if bytes ≤ 0 then m
  else
    match m.currentBinding lib s now with
    | (m, none) => m
    | (m, some binding) => m.recordBound binding direction bytes now

/-- The quota part of `Wait`, `AllowPacket` and `PortalURL`: the policies that are over their quota are
looked at again. A limiter may end the loop early, after `served` policies. -/
def wait (lib : Stdlib) (s : Nat) (served : Nat) (now : Nat) (m : Manager) : Manager :=
  match m.currentBinding lib s now with
  | (m, none) => m
  | (m, some binding) =>
    (binding.policies.take served).foldl
      (fun m p => if (m.heap p.state).overQuota then m.refreshQuota now p else m) m

def status (now : Nat) (m : Manager) : Manager := m.runtime.policies.foldl (refreshQuota now) m

def closeSession (s : Nat) (m : Manager) : Manager :=
  match m.sessions[s]? with
  | none => m
  | some session =>
    if session.closed then m
    else
      let m := m.setSession s { session with binding := none, closed := true }
      m.releaseSessionBinding session.binding

end Manager

end AsterCore
