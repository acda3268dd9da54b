import AsterCore.TrafficStaging
import AsterCore.TrafficFrame

namespace AsterCore

/-- The calls on a manager, with their clock readings and what the environment answers. -/
inductive ManagerOp
  | configure (config : Option Config) (staged committed : Nat) (env : ConfigureEnv)
  | openSession (flow : Flow) (now : Nat)
  | record (s : Nat) (direction : Direction) (bytes : Int64) (now : Nat)
  | wait (s served now : Nat)
  | closeSession (s : Nat)
  | status (now : Nat)
  | reset (id : String) (now : Nat) (env : FlushEnv)
  | flush (now : Nat) (env : FlushEnv)
  | close (now : Nat) (env : FlushEnv) (closed : Bool)

namespace Manager

def apply (lib : Stdlib) (m : Manager) : ManagerOp → Manager
  | .configure config staged committed env => (m.configure lib config staged committed env).1
  | .openSession flow now => (m.openSession lib flow now).1
  | .record s direction bytes now => m.record lib s direction bytes now
  | .wait s served now => m.wait lib s served now
  | .closeSession s => m.closeSession s
  | .status now => m.status now
  | .reset id now env => (m.reset id now env).1
  | .flush now env => (m.flushLocked now env).1
  | .close now env closed => (m.close now env closed).1

def run (lib : Stdlib) (m : Manager) (ops : List ManagerOp) : Manager := ops.foldl (apply lib) m

theorem run_concat (lib : Stdlib) (m : Manager) (ops : List ManagerOp) (op : ManagerOp) :
    m.run lib (ops ++ [op]) = (m.run lib ops).apply lib op := by
  simp [run]

theorem apply_session_step {R : PolicyState → PolicyState → Prop} (rel : SessionRel R) (lib : Stdlib)
    (m : Manager) {op : ManagerOp} (hs : (∃ flow now, op = .openSession flow now) ∨ (∃ s served now, op = .wait s served now) ∨
      (∃ s, op = .closeSession s) ∨ ∃ now, op = .status now) : SessionStep R m (m.apply lib op) := by
  rcases hs with ⟨flow, now, rfl⟩ | ⟨s, served, now, rfl⟩ | ⟨s, rfl⟩ | ⟨now, rfl⟩
  · exact openSession_step rel lib flow now m
  · exact wait_step rel lib s served now m
  · exact closeSession_step rel s m
  · exact status_step rel now m

theorem touchStates_rest (refs : List Nat) (now : Nat) (m : Manager) :
    m.touchStates refs now = { m with heap := (m.touchStates refs now).heap } ∧
      ∀ ref, (m.touchStates refs now).heap ref =
        { m.heap ref with lastSeen := ((m.touchStates refs now).heap ref).lastSeen } := by
  unfold touchStates
  induction refs generalizing m with
  | nil => exact ⟨rfl, fun _ => rfl⟩
  | cons r _ ih =>
    obtain ⟨hr, hh⟩ := ih (m.modifyState r (fun state => { state with lastSeen := unixOf now }))
    refine ⟨hr, fun ref => ?_⟩
    rw [List.foldl_cons, hh ref]
    by_cases hs : ref = r
    · subst hs
      simp [modifyState]
    · simp [modifyState, hs]

theorem commitStage_rest (stage : Stage) (now : Nat) (m : Manager) :
    m.commitStage stage now = { m with
      heap := (m.commitStage stage now).heap
      store := m.stagedStore stage
      states := stage.states
      table := { m.table with reports := stage.reports }
      lastCheckpoint := stage.checkpoint
      revision := m.revision + 1
      runtime := { stage.runtime with generation := m.revision + 1 }
      dirty := stage.config.isSome } := by
  exact (touchStates_rest stage.touched now _).1

section Allocated

variable {m m' : Manager}

theorem allocated_session {R : PolicyState → PolicyState → Prop} (ha : m.Allocated)
    (hs : SessionStep R m m') : m'.Allocated := by
  refine ⟨fun p hp => ?_, ?_, hs.table ha.table⟩
  · rw [hs.runtime] at hp
    rw [hs.freshState]
    exact ha.runtime p hp
  · rw [hs.states, hs.freshState]
    exact ha.states

theorem allocated_flush (ha : m.Allocated) (now : Nat) (env : FlushEnv) : (m.flushLocked now env).1.Allocated := by
  have hs := flushLocked_step now env m
  generalize m.flushLocked now env = result at hs ⊢
  have hr : result.1.runtime = m.runtime := by rw [hs.rest]
  have hf : result.1.freshState = m.freshState := by rw [hs.rest]
  refine ⟨fun p hp => ?_, ?_, hs.table ha.table⟩
  · rw [hr] at hp
    rw [hf]
    exact ha.runtime p hp
  · rw [hf, hs.states]
    split
    · exact ha.states.sub (fun id ref => cleanedStates_sub) le_rfl
    · exact ha.states

theorem allocated_prepare (ha : m.Allocated) (step : PrepareStep m m') : m'.Allocated := by
  refine ⟨fun p hp => ?_, ?_, ?_⟩
  · have hr : m'.runtime = m.runtime := by rw [step.rest]
    rw [hr] at hp
    exact lt_of_lt_of_le (ha.runtime p hp) step.fresh
  · have hs : m'.states = m.states := by rw [step.rest]
    rw [hs]
    exact ha.states.mono step.fresh
  · refine ha.table.sub ?_ step.freshSeries
    intro _ _ h
    rw [step.reports] at h
    exact h

theorem allocated_commit {stage : Stage} (hr : stage.Ready m) (now : Nat) : (m.commitStage stage now).Allocated := by
  rw [commitStage_rest]
  exact ⟨hr.policies, hr.states, hr.reports⟩

theorem ready_flush {stage : Stage} (hr : stage.Ready m) (now : Nat) (env : FlushEnv) :
    stage.Ready (m.flushLocked now env).1 := by
  have hs := flushLocked_step now env m
  generalize m.flushLocked now env = result at hs ⊢
  have hf : result.1.freshState = m.freshState := by rw [hs.rest]
  refine ⟨hr.config, hr.specs, ?_, ?_, ?_, hr.closed⟩
  · rw [hf]
    exact hr.states
  · rw [hf]
    exact hr.policies
  · exact hr.reports.sub (fun _ _ h => h) (le_of_eq hs.fresh.symm)

theorem allocated_empty {runtime : RuntimeState} (hpo : runtime.policies = []) (store : Option Store) (fresh : Nat) :
    ({ m with store := store, runtime := runtime, freshRuntime := fresh, states := ∅
              table := { m.table with reports := ∅ } } : Manager).Allocated := by
  refine ⟨fun p hp => ?_, GoMap.Pointers.empty _, GoMap.Pointers.empty _⟩
  simp [hpo] at hp

theorem allocated_start : Allocated {} := by
  refine ⟨fun p hp => ?_, GoMap.Pointers.empty _, ReportTable.wellFormed_empty⟩
  cases hp

end Allocated

end Manager

end AsterCore
