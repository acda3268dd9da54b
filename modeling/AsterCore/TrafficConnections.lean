import AsterCore.Runs
import AsterCore.TrafficLifecycle
import AsterCore.TrafficSums
import Mathlib.Data.Finset.Card

namespace AsterCore

open List GoMap ReportTable

/-- The sum of the hours of a series. -/
def ReportSeries.hours (series : ReportSeries) : Counters := series.hourly.sumBy fun _ counters => counters

theorem ReportSeries.bump_hours (series : ReportSeries) (now : Nat) (increment : ReportIncrement) :
    (series.bump now increment).hours = series.hours + increment.value := by
  simp only [hours, bump, sumBy_update, ReportIncrement.apply_eq_add]
  cases series.hourly.lookup (hourStart now) <;> simp

namespace ReportTable

def connections (t : ReportTable) (key : String) : Int64 := (t.seriesAt key).hours.connections

def landings (now : Nat) (key : String) : ReportTable → List String → Nat
  | _, [] => 0
  | t, k :: keys =>
    let after := t.recordKey (.connections 1) now k
    (k = key && after.2).toNat + landings now key after.1 keys

/-- The report names `key` once, and has or gets a series for it when its turn comes. -/
def admits (now : Nat) (key : String) : ReportTable → List String → Bool
  | _, [] => false
  | t, k :: keys =>
    if k = key then key ∉ keys && ((t.reports.lookup key).isSome || t.reports.entries.length < maxReportSeries)
    else admits now key (t.recordKey (.connections 1) now k).1 keys

theorem landings_absent {now : Nat} {key : String} {keys : List String} (ha : key ∉ keys) (t : ReportTable) :
    t.landings now key keys = 0 := by
  induction keys generalizing t with
  | nil => rfl
  | cons k keys ih =>
    simp only [mem_cons, not_or] at ha
    simp [landings, ih ha.2, Ne.symm ha.1]

theorem landings_of_admits {now : Nat} {key : String} {keys : List String} {t : ReportTable}
    (ha : t.admits now key keys = true) : t.landings now key keys = 1 := by
  induction keys generalizing t with
  | nil => cases ha
  | cons k keys ih =>
    unfold admits at ha
    unfold landings
    split at ha
    next hs =>
      subst hs
      simp only [Bool.and_eq_true, decide_eq_true_eq] at ha
      have hl : (t.recordKey (.connections 1) now k).2 = true := by
        unfold recordKey reportSeries
        cases ht : t.reports.lookup k with
        | some ref => rfl
        | none =>
          have hr : ¬ maxReportSeries ≤ t.reports.entries.length := by
            simpa [ht] using ha.2
          simp [hr]
      simp [hl, landings_absent ha.1]
    next ho => simp [ho, ih ha]

section

variable {t : ReportTable} (wf : t.WellFormed) (key : String) (now : Nat)

include wf

theorem recordKey_connections (increment : ReportIncrement) (k : String) :
    (t.recordKey increment now k).1.connections key =
      t.connections key + if (t.recordKey increment now k).2 ∧ key = k then increment.value.connections else 0 := by
  unfold connections
  rw [(recordKey_cases wf Prod.mk.eta.symm).2 key]
  split
  next h => rw [h.2, ReportSeries.bump_hours, Counters.add_connections]
  · simp

theorem recordKeys_connections (keys : List String) :
    (keys.foldl (fun t k => (t.recordKey (.connections 1) now k).1) t).connections key =
      t.connections key + Int64.ofNat (t.landings now key keys) := by
  induction keys generalizing t with
  | nil => simp [landings]
  | cons k keys ih =>
    rw [foldl_cons, ih (recordKey_wellFormed wf _ now k), recordKey_connections wf, landings, Int64.ofNat_add, Int64.add_assoc]
    congr 2
    by_cases hk : k = key
    · cases (t.recordKey (.connections 1) now k).2 <;> simp [hk, ReportIncrement.value, ReportIncrement.apply]
    · simp [hk, Ne.symm hk]

theorem recordReport_connections (reports : Option ReportsConfig) {increment : ReportIncrement}
    (none : increment.value.connections = 0) (keys : List String) :
    (t.recordReport reports increment keys now).connections key = t.connections key := by
  have hk : (keys.foldl (fun t k => (t.recordKey increment now k).1) t).connections key = t.connections key := by
    induction keys generalizing t with
    | nil => rfl
    | cons k keys ih => rw [foldl_cons, ih (recordKey_wellFormed wf _ now k), recordKey_connections wf, none, ite_self, Int64.add_zero]
  unfold recordReport
  split
  · rfl
  · split
    · exact hk
    · rfl

end

end ReportTable

namespace Manager

variable (lib : Stdlib)

def rebinds (m : Manager) (s now : Nat) : Option (Nat × List String × Nat) :=
  match m.sessions[s]? with
  | none => none
  | some session =>
    if session.closed || session.binding.any (fun binding => binding.runtime.ref == m.runtime.ref) then none
    else some (s, (m.bindSession lib m.runtime session.flow now).2.reportKeys, now)

def binds (m : Manager) : ManagerOp → Option (Nat × List String × Nat)
  | .openSession flow now =>
    let binding := (m.bindSession lib m.runtime flow now).2
    if binding.policies.isEmpty then none else some (m.sessions.length, binding.reportKeys, now)
  | .record s _ bytes now => if bytes ≤ 0 then none else m.rebinds lib s now
  | .wait s _ now => m.rebinds lib s now
  | _ => none

/-- The calls that write to the series of the report. -/
def writes : ManagerOp → Bool
  | .openSession .. | .record .. | .wait .. => true
  | _ => false

section

variable {lib} {m : Manager} {now : Nat}

theorem modifyStates_table {α : Type} {f : Manager → α → Manager} (hf : ∀ m a, (f m a).table = m.table) (l : List α)
    (m : Manager) : (l.foldl f m).table = m.table :=
  foldlRecOn (motive := fun m' : Manager => m'.table = m.table) l f rfl fun _ h a _ => (hf _ a).trans h

theorem newBinding_reportKeys (runtime : RuntimeState) (matched : List RuntimePolicy) :
    (newBinding runtime matched).reportKeys = [] ∨ runtime.reportsEnabled = true := by
  unfold newBinding
  cases runtime.reportsEnabled with
  | true => exact .inr rfl
  | false => split <;> exact .inl rfl

theorem bound_connections (wf : m.table.WellFormed) {m' : Manager} (same : m'.table = m.table) (hr : m'.runtime = m.runtime)
    (matched : List RuntimePolicy) (key : String) :
    (m'.recordReportConnections (newBinding m.runtime matched).reportKeys 1 now).table.connections key =
      m.table.connections key + Int64.ofNat (m.table.landings now key (newBinding m.runtime matched).reportKeys) := by
  simp only [recordReportConnections, reportsConfig, ReportTable.recordReportConnections, same, hr]
  rcases newBinding_reportKeys m.runtime matched with empty | on
  · rw [empty]
    unfold ReportTable.recordReport
    split
    · simp [landings]
    · simp [landings]
  · unfold RuntimeState.reportsEnabled at on
    split at on
    · cases on
    next config hc =>
      simp only [hc, Option.map_some, ReportTable.recordReport, on, if_true]
      exact recordKeys_connections wf key now _

def landed (m : Manager) (key : String) : Option (Nat × List String × Nat) → Nat
  | none => 0
  | some (_, keys, now) => m.table.landings now key keys

theorem bindSession_table (flow : Flow) : (m.bindSession lib m.runtime flow now).1.table = m.table :=
  modifyStates_table (f := bindPolicy now) (fun _ _ => rfl) _ m

theorem release_table (binding : Option SessionBinding) : (m.releaseSessionBinding binding).table = m.table := by
  cases binding with
  | none => rfl
  | some binding => exact modifyStates_table (f := addActive (-1)) (fun _ _ => rfl) _ m

theorem currentBinding_connections (wf : m.table.WellFormed) (lib : Stdlib) (s now : Nat) (key : String) :
    (m.currentBinding lib s now).1.table.connections key =
      m.table.connections key + Int64.ofNat (m.landed key (m.rebinds lib s now)) := by
  unfold currentBinding rebinds
  cases m.sessions[s]? with
  | none => simp [landed]
  | some session =>
    cases hc : session.closed with
    | true => simp [landed, hc]
    | false =>
      simp only [hc, Bool.false_or, Bool.false_eq_true, if_false]
      split
      · simp [landed]
      · refine bound_connections wf ?_ ?_ _ key
        · rw [release_table]
          exact bindSession_table session.flow
        · rw [(release_step sessionRel_true _ session.binding).runtime]
          exact (bindSession_step sessionRel_true lib m.runtime session.flow now m).runtime

theorem recordBound_connections (wf : m.table.WellFormed) (binding : SessionBinding) (direction : Direction) (bytes : Int64)
    (key : String) : (m.recordBound binding direction bytes now).table.connections key = m.table.connections key := by
  have counted : (binding.policies.foldl (recordPolicy direction bytes now) (m, false)).1.table = m.table :=
    foldlRecOn (motive := fun acc : Manager × Bool => acc.1.table = m.table) binding.policies _ rfl fun _ h _ _ => h
  have transfer : (ReportIncrement.transfer direction bytes).value.connections = 0 := by cases direction <;> rfl
  have sent := recordReport_connections wf key now m.reportsConfig transfer binding.reportKeys
  have wf' := recordReport_wellFormed wf m.reportsConfig (.transfer direction bytes) binding.reportKeys now
  have hr := (recordPolicies_step direction bytes now m binding.policies).runtime
  unfold recordBound recordReportExceeded recordReports ReportTable.recordReports ReportTable.recordReportExceeded reportsConfig
  simp only
  split <;> split <;> simp only [counted, hr]
  · exact recordReport_connections wf key now _ rfl _
  · exact (recordReport_connections wf' key now _ rfl _).trans sent
  · exact sent

theorem apply_connections (wf : m.table.WellFormed) {op : ManagerOp} (hw : writes op = true) (key : String) :
    (m.apply lib op).table.connections key = m.table.connections key + Int64.ofNat (m.landed key (m.binds lib op)) := by
  cases op with
  | openSession flow now =>
    simp only [apply, openSession, binds]
    split
    · simp [landed, bindSession_table]
    · exact bound_connections wf (bindSession_table flow)
        (bindSession_step sessionRel_true lib m.runtime flow now m).runtime _ key
  | record s direction bytes now =>
    simp only [apply, record, binds]
    have hb := currentBinding_connections wf lib s now key
    have wf' := (currentBinding_step sessionRel_true lib s now m).table wf
    split
    · simp [landed]
    · split
      next eq => rwa [eq] at hb
      next eq =>
        rw [eq] at hb wf'
        rw [recordBound_connections wf', hb]
  | wait s served now =>
    have hb := currentBinding_connections wf lib s now key
    simp only [apply, wait, binds]
    split
    next eq => rwa [eq] at hb
    next eq =>
      rw [eq] at hb
      rw [modifyStates_table, hb]
      intro m p
      split <;> rfl
  | _ => cases hw

end

/-- A manager with the connections that were ever written for a key and the sessions that were ever bound with it. -/
structure Counting where
  manager : Manager := {}
  connections : Int := 0
  sessions : Finset Nat := ∅

namespace Counting

variable (key : String)

/-- What a call writes is the change of the hours that the series of the key has after it. -/
def follow (x : Counting) (op : ManagerOp) : Counting where
  manager := x.manager.apply lib op
  connections := x.connections +
    if writes op then ((x.manager.apply lib op).table.connections key - x.manager.table.connections key).toInt else 0
  sessions :=
    match x.manager.binds lib op with
    | none => x.sessions
    | some (s, keys, _) => if key ∈ keys then insert s x.sessions else x.sessions

/-- A session that is bound with the key was not bound with it before, and the key has a series. -/
def Fresh (x : Counting) (op : ManagerOp) : Prop :=
  ∀ b ∈ x.manager.binds lib op, key ∈ b.2.1 → b.1 ∉ x.sessions ∧ x.manager.table.admits b.2.2 key b.2.1 = true

variable {lib key}

structure Exact (lib : Stdlib) (x : Counting) : Prop where
  sums : SumsInv lib x.manager
  count : x.connections = x.sessions.card

theorem follow_exact {x : Counting} {op : ManagerOp} (hx : x.Exact lib) (hf : x.Fresh lib key op) :
    (x.follow lib key op).Exact lib := by
  refine ⟨sumsInv_apply hx.sums op, ?_⟩
  have wf := hx.sums.allocated.table
  have none : writes op = false → x.manager.binds lib op = none := by cases op <;> simp [writes, binds]
  have written : (x.follow lib key op).connections = x.connections + (Int64.ofNat (x.manager.landed key (x.manager.binds lib op))).toInt := by
    simp only [follow]
    cases hw : writes op with
    | false => simp [none hw, landed]
    | true => rw [apply_connections wf hw]; simp
  rw [written, hx.count]
  simp only [follow]
  cases hb : x.manager.binds lib op with
  | none => simp [landed]
  | some b =>
    obtain ⟨s, keys, now⟩ := b
    by_cases hn : key ∈ keys
    · obtain ⟨new, ha⟩ := hf _ hb hn
      simp [landed, hn, new, landings_of_admits ha]
    · simp [landed, hn, landings_absent hn]

end Counting

/-- In every run of calls in which each session is bound with the key only once and the key has a series then, the connections
written to the series of the key are the sessions that were ever bound with it. -/
theorem connections_count_sessions (lib : Stdlib) (key : String) (ops : List ManagerOp)
    (fresh : MeetsAlong (Counting.follow lib key) (Counting.Fresh lib key) {} ops) :
    (ops.foldl (Counting.follow lib key) {}).connections = (ops.foldl (Counting.follow lib key) {}).sessions.card := by
  have exact : Counting.Exact lib (ops.foldl (Counting.follow lib key) {}) :=
    foldl_invariant Counting.follow_exact ⟨sumsInv_start, rfl⟩ fresh
  exact exact.count

theorem connections_count_sessions_used :
    let x := (usedOnce 1785542460000000000).foldl (Counting.follow idleStdlib "global:global") {}
    x.connections = 1 ∧ x.connections = x.sessions.card := by
  refine ⟨by decide +kernel, connections_count_sessions idleStdlib "global:global" _ ⟨?_, ?_, ?_, trivial⟩⟩ <;>
    unfold Counting.Fresh <;> decide +kernel

/-- The session of `usedOnce` sends again after the configuration was repeated, and is counted again. -/
theorem connections_count_twice :
    let ops := usedOnce 1785542460000000000 ++
      [.configure (some idleConfig) 1785542520000000000 1785542520000000000 {}, .record 0 .upload 10 1785542580000000000]
    let x := ops.foldl (Counting.follow idleStdlib "global:global") {}
    (x.connections, x.sessions) = (2, {0}) := by
  decide +kernel

end Manager

end AsterCore
