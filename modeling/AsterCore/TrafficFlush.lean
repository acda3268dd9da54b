import AsterCore.TrafficManager

namespace AsterCore

/-- How a call of `Store.Save` ends. Only a failed transaction leaves the file as it was: the
backup and the size limit are looked at after the commit. -/
inductive SaveOutcome
  | failed
  | backupFailed
  | overLimit
  | saved
  deriving DecidableEq

/-- One round of `trimReportsToStoreLimitLocked`: the save, the compaction and the size after it. -/
structure TrimRound where
  save : SaveOutcome
  compacted : Bool
  size : Int64

structure FlushEnv where
  save : SaveOutcome := .saved
  round : Nat → TrimRound := fun _ => ⟨.saved, true, 0⟩

inductive ManagerError
  | storeLimit
  | io
  | policyNotFound
  | staging (message : String)
  deriving DecidableEq

/-- The common test of `cleanupOrphansLocked` and `cleanupStagedOrphans`. -/
def PolicyState.isOrphan (cutoff : Int) (state : PolicyState) : Bool :=
  state.active == 0 && decide (0 < state.lastSeen) && decide (state.lastSeen < cutoff)

def orphanCutoff (now : Nat) (retention : Int) : Int := unixOf now - retention / 1000000000

/-- The common loop of `cleanupOrphansLocked` and `cleanupStagedOrphans`. -/
def cleanupOrphans (heap : Nat → PolicyState) (retention : Int) (now : Nat) (states : GoMap String Nat) :
    GoMap String Nat :=
  states.deleteWhere (fun _ ref => (heap ref).isOrphan (orphanCutoff now retention))

theorem cleanupOrphans_lookup (heap : Nat → PolicyState) (retention : Int) (now : Nat)
    (states : GoMap String Nat) (id : String) :
    (cleanupOrphans heap retention now states).lookup id =
      (states.lookup id).filter (fun ref => !(heap ref).isOrphan (orphanCutoff now retention)) :=
  GoMap.lookup_deleteWhere _ _ _

def ReportTable.byAge (t : ReportTable) : List (String × Int) :=
  (t.reports.entries.map fun e => (e.1, (t.series e.2).updated)).insertionSort (fun a b => a.2 ≤ b.2)

def ReportTable.dropKeys (t : ReportTable) (keys : List String) : ReportTable :=
  { t with reports := keys.foldl (fun reports key => reports.erase key) t.reports }

/-- `dropOldestReportSeries` on a table that is not empty: a tenth of the series, at least one. -/
def ReportTable.dropOldest (t : ReportTable) : ReportTable :=
  let count := max 1 ((t.reports.entries.length + 9) / 10)
  t.dropKeys ((t.byAge.take count).map Prod.fst)

structure ReportTable.Trimmed (t t' : ReportTable) : Prop where
  sub : ∀ key ref, t'.reports.lookup key = some ref → t.reports.lookup key = some ref
  series : t'.series = t.series
  fresh : t'.fresh = t.fresh

namespace ReportTable

theorem Trimmed.refl (t : ReportTable) : Trimmed t t := ⟨fun _ _ h => h, rfl, rfl⟩

theorem Trimmed.trans {t t' t'' : ReportTable} (h : Trimmed t t') (h' : Trimmed t' t'') : Trimmed t t'' :=
  ⟨fun key ref ht => h.sub key ref (h'.sub key ref ht), h'.series.trans h.series, h'.fresh.trans h.fresh⟩

theorem Trimmed.wellFormed {t t' : ReportTable} (h : Trimmed t t') (wf : t.WellFormed) : t'.WellFormed :=
  wf.sub h.sub (le_of_eq h.fresh.symm)

theorem dropOldest_trimmed (t : ReportTable) : Trimmed t t.dropOldest :=
  ⟨fun _ _ h => GoMap.lookup_eraseKeys h, rfl, rfl⟩

end ReportTable

namespace Manager

def saveStore (checkpoint : Int) (m : Manager) : Manager :=
  { m with store := m.store.map (fun store =>
      { store with file := saveFile m.states m.heap m.table checkpoint }) }

def cleanupOrphansLocked (retention : Int) (now : Nat) (m : Manager) : Manager :=
  { m with states := cleanupOrphans m.heap retention now m.states }

def rollupAndPruneLocked (now : Nat) (m : Manager) : Manager :=
  match m.runtime.config with
  | none => m
  | some config =>
    let m := m.cleanupOrphansLocked config.reports.orphanRetention now
    { m with table := m.table.rollupAndPrune config.reports now }

def maxStoreSize (m : Manager) : Int64 :=
  match m.runtime.config with
  | none => 0
  | some config => config.maxStoreSize

/-- `trimReportsToStoreLimitLocked`. The loop drops a series in every round, so it ends at the
latest when the `fuel` of as many rounds as there are series is used up and none is left. -/
def trimReports (checkpoint : Int) (env : FlushEnv) : Nat → Nat → Manager → Manager × Except ManagerError Unit
  | 0, _, m => (m, .error .storeLimit)
  | fuel + 1, i, m =>
    if m.table.reports.entries.isEmpty then (m, .error .storeLimit)
    else
      let m := { m with table := m.table.dropOldest }
      match (env.round i).save with
      | .failed => (m, .error .io)
      | .backupFailed => (m.saveStore checkpoint, .error .io)
      | _ =>
        let m := m.saveStore checkpoint
        if !(env.round i).compacted then (m, .error .io)
        else if (env.round i).size ≤ m.maxStoreSize then (m, .ok ())
        else m.trimReports checkpoint env fuel (i + 1)

/-- `flushLocked` after the rollup: the save and, when the store is too large, the trimming. -/
def saveAndTrim (checkpoint : Int) (env : FlushEnv) (m : Manager) : Manager × Except ManagerError Unit :=
  match env.save with
  | .failed => (m, .error .io)
  | .backupFailed => (m.saveStore checkpoint, .error .io)
  | .saved => (m.saveStore checkpoint, .ok ())
  | .overLimit => (m.saveStore checkpoint).trimReports checkpoint env m.table.reports.entries.length 0

def flushLocked (now : Nat) (env : FlushEnv) (m : Manager) : Manager × Except ManagerError Unit :=
  if m.store.isNone || !m.dirty then (m, .ok ())
  else
    let m := ({ m with dirty := false } : Manager).rollupAndPruneLocked now
    match m.saveAndTrim (unixOf now) env with
    | (m, .error e) => ({ m with dirty := true }, .error e)
    | (m, .ok ()) => ({ m with lastCheckpoint := unixOf now }, .ok ())

def reset (id : String) (now : Nat) (env : FlushEnv) (m : Manager) : Manager × Except ManagerError Unit :=
  match m.runtime.policies.find? (fun p => p.spec.id == id) with
  | none => (m, .error .policyNotFound)
  | some p =>
    let m := m.modifyState p.state (PolicyState.reset now)
    ({ m with dirty := true } : Manager).flushLocked now env

def close (now : Nat) (env : FlushEnv) (closed : Bool) (m : Manager) : Manager × Except ManagerError Unit :=
  match m.flushLocked now env with
  | (m, .error e) => (m, .error e)
  | (m, .ok ()) =>
    ({ m with
        store := none
        runtime := ⟨m.freshRuntime, none, [], 0⟩
        freshRuntime := m.freshRuntime + 1
        states := ∅
        table := { m.table with reports := ∅ } },
      if m.store.isSome && !closed then .error .io else .ok ())

def persistedPolicy (m : Manager) (id : String) : Option PersistedPolicy :=
  (m.states.lookup id).map (fun ref => (m.heap ref).persist)

def persistedReport (m : Manager) (key : String) : Option PersistedReport :=
  (m.table.reports.lookup key).map (fun ref => (m.table.series ref).persist)

def Saved (m : Manager) : Prop :=
  ∀ store, m.store = some store →
    (∀ id, store.file.policies.lookup id = m.persistedPolicy id) ∧
      ∀ key, store.file.reports.lookup key = m.persistedReport key

theorem saveStore_saved (checkpoint : Int) (m : Manager) : (m.saveStore checkpoint).Saved := by
  intro _ h
  obtain ⟨_, _, rfl⟩ := Option.map_eq_some_iff.mp h
  exact ⟨saveFile_policies _ _ _ _, saveFile_reports _ _ _ _⟩

structure SaveStep (m : Manager) (result : Manager × Except ManagerError Unit) : Prop where
  rest : result.1 = { m with table := result.1.table, store := result.1.store }
  opened : result.1.store.isSome = m.store.isSome
  trimmed : m.table.Trimmed result.1.table
  saved : result.2 = .ok () → result.1.Saved

theorem trimReports_step (checkpoint : Int) (env : FlushEnv) (fuel i : Nat) (m : Manager) :
    SaveStep m (m.trimReports checkpoint env fuel i) := by
  induction fuel generalizing i m with
  | zero => exact ⟨rfl, rfl, .refl _, fun h => by cases h⟩
  | succ _ ih =>
    unfold trimReports
    split
    · exact ⟨rfl, rfl, .refl _, fun h => by cases h⟩
    · have ho := m.table.dropOldest_trimmed
      have hd : ∀ {r}, SaveStep (({ m with table := m.table.dropOldest } : Manager).saveStore checkpoint) r →
          SaveStep m r := by
        intro r h
        refine ⟨?_, ?_, ho.trans h.trimmed, h.saved⟩
        · rw [h.rest]
          rfl
        · rw [h.opened]
          simp [saveStore]
      simp only
      split
      · exact ⟨rfl, rfl, ho, fun h => by cases h⟩
      · exact hd ⟨rfl, rfl, .refl _, fun h => by cases h⟩
      · split
        · exact hd ⟨rfl, rfl, .refl _, fun h => by cases h⟩
        · split
          · exact hd ⟨rfl, rfl, .refl _, fun _ => saveStore_saved checkpoint _⟩
          · exact hd (ih (i + 1) _)

theorem saveAndTrim_step (checkpoint : Int) (env : FlushEnv) (m : Manager) :
    SaveStep m (m.saveAndTrim checkpoint env) ∧
      (env.save ≠ .overLimit → (m.saveAndTrim checkpoint env).1.table = m.table) := by
  have ho : (m.saveStore checkpoint).store.isSome = m.store.isSome := by simp [saveStore]
  unfold saveAndTrim
  split
  · exact ⟨⟨rfl, rfl, .refl _, fun h => by cases h⟩, fun _ => rfl⟩
  · exact ⟨⟨rfl, ho, .refl _, fun h => by cases h⟩, fun _ => rfl⟩
  · exact ⟨⟨rfl, ho, .refl _, fun _ => saveStore_saved checkpoint m⟩, fun _ => rfl⟩
  next hl =>
    have hs := trimReports_step checkpoint env m.table.reports.entries.length 0 (m.saveStore checkpoint)
    refine ⟨⟨?_, hs.opened.trans ho, hs.trimmed, hs.saved⟩, absurd hl⟩
    rw [hs.rest]
    rfl

def cleanedStates (now : Nat) (m : Manager) : GoMap String Nat :=
  match m.runtime.config with
  | none => m.states
  | some config => cleanupOrphans m.heap config.reports.orphanRetention now m.states

theorem cleanedStates_sub {now : Nat} {m : Manager} {id : String} {ref : Nat}
    (h : (m.cleanedStates now).lookup id = some ref) : m.states.lookup id = some ref := by
  unfold cleanedStates at h
  split at h
  · exact h
  · rw [cleanupOrphans_lookup, Option.filter_eq_some_iff] at h
    exact h.1

theorem rollupAndPruneLocked_rest (now : Nat) (m : Manager) :
    m.rollupAndPruneLocked now =
      { m with states := m.cleanedStates now, table := (m.rollupAndPruneLocked now).table } := by
  unfold rollupAndPruneLocked cleanedStates
  cases m.runtime.config <;> rfl

theorem rollupAndPruneLocked_table (now : Nat) (m : Manager) :
    (m.table.WellFormed → (m.rollupAndPruneLocked now).table.WellFormed) ∧
      (m.rollupAndPruneLocked now).table.fresh = m.table.fresh := by
  unfold rollupAndPruneLocked
  split
  · exact ⟨id, rfl⟩
  · exact ⟨ReportTable.rollup_wellFormed _ _, ReportTable.rollupLoop_fresh _ _ _ _⟩

/-- What a flush does. A flush that is not needed does nothing at all; otherwise it drops the
orphans, and it clears the flag exactly when the store holds what the memory holds. -/
structure FlushStep (now : Nat) (m : Manager) (result : Manager × Except ManagerError Unit) : Prop where
  rest : result.1 = { m with
    states := result.1.states, table := result.1.table, store := result.1.store, dirty := result.1.dirty,
    lastCheckpoint := result.1.lastCheckpoint }
  opened : result.1.store.isSome = m.store.isSome
  states : result.1.states = if m.store.isSome && m.dirty then m.cleanedStates now else m.states
  table : m.table.WellFormed → result.1.table.WellFormed
  fresh : result.1.table.fresh = m.table.fresh
  failed : ∀ e, result.2 = .error e → result.1.dirty = true
  saved : result.2 = .ok () → (result.1 = m ∧ (m.store = none ∨ m.dirty = false)) ∨ result.1.Saved

theorem flushLocked_step (now : Nat) (env : FlushEnv) (m : Manager) : FlushStep now m (m.flushLocked now env) := by
  unfold flushLocked
  split
  next idle =>
    have off : (m.store.isSome && m.dirty) = false := by
      cases h : m.store <;> simp_all
    refine ⟨rfl, rfl, by simp [off], id, rfl, (fun e h => by cases h), fun _ => Or.inl ⟨rfl, ?_⟩⟩
    cases h : m.store <;> simp_all
  next busy =>
    have on : (m.store.isSome && m.dirty) = true := by
      cases h : m.store <;> simp_all
    have hp := rollupAndPruneLocked_rest now { m with dirty := false }
    have hk := rollupAndPruneLocked_table now { m with dirty := false }
    have hs := (saveAndTrim_step (unixOf now) env
      (({ m with dirty := false } : Manager).rollupAndPruneLocked now)).1
    simp only
    generalize (({ m with dirty := false } : Manager).rollupAndPruneLocked now).saveAndTrim (unixOf now) env =
      result at hs ⊢
    have hr := hs.rest
    have ho := hs.opened
    have ht := fun wf => hs.trimmed.wellFormed (hk.1 wf)
    have hf := hs.trimmed.fresh.trans hk.2
    rw [hp] at hr ho
    split
    next m' _ =>
      refine ⟨?_, ho, ?_, ht, hf, fun _ _ => rfl, fun h => by cases h⟩
      · rw [show m' = _ from hr]
      · rw [show m' = _ from hr, if_pos on]
        rfl
    next m' =>
      refine ⟨?_, ho, ?_, ht, hf, (nofun), fun _ => .inr (hs.saved rfl)⟩
      · rw [show m' = _ from hr]
      · rw [show m' = _ from hr, if_pos on]
        rfl

theorem flushLocked_table (now : Nat) (env : FlushEnv) {m : Manager} (ho : m.store.isSome) (hf : m.dirty) :
    (m.rollupAndPruneLocked now).table.Trimmed (m.flushLocked now env).1.table ∧
      (env.save ≠ .overLimit → (m.flushLocked now env).1.table = (m.rollupAndPruneLocked now).table) := by
  have same : (({ m with dirty := false } : Manager).rollupAndPruneLocked now).table =
      (m.rollupAndPruneLocked now).table := by
    unfold rollupAndPruneLocked
    cases m.runtime.config <;> rfl
  obtain ⟨hs, hk⟩ := saveAndTrim_step (unixOf now) env
    (({ m with dirty := false } : Manager).rollupAndPruneLocked now)
  have ht := hs.trimmed
  rw [same] at ht hk
  unfold flushLocked
  rw [if_neg (by simp [hf, Option.isSome_iff_ne_none.mp ho])]
  simp only
  split
  next eq =>
    rw [eq] at ht hk
    exact ⟨ht, hk⟩
  next eq =>
    rw [eq] at ht hk
    exact ⟨ht, hk⟩

end Manager

end AsterCore
