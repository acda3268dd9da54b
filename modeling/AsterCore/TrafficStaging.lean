import AsterCore.TrafficConfigure

namespace AsterCore

open List PolicyState

def SameButRolling (s s' : PolicyState) : Prop := s' = { s with rolling := s'.rolling }

theorem SameButRolling.trans {s t u : PolicyState} (h : SameButRolling s t) (h' : SameButRolling t u) : SameButRolling s u := by
  unfold SameButRolling at h h' ⊢
  rw [h', h]

theorem attach_sameButRolling (spec : Policy) (s : PolicyState) : SameButRolling s (s.attach spec) := by
  unfold PolicyState.attach SameButRolling
  split <;> rfl

def Manager.Idle (m : Manager) : Prop := ∀ ref, m.freshState ≤ ref → (m.heap ref).active = 0

structure PrepareStep (m m' : Manager) : Prop where
  fresh : m.freshState ≤ m'.freshState
  heap : ∀ ref < m.freshState, SameButRolling (m.heap ref) (m'.heap ref)
  active : m.Idle → ∀ ref, (m'.heap ref).active = (m.heap ref).active
  freshSeries : m.table.fresh ≤ m'.table.fresh
  series : ∀ ref < m.table.fresh, m'.table.series ref = m.table.series ref
  reports : m'.table.reports = m.table.reports
  runtimes : m.freshRuntime ≤ m'.freshRuntime
  rest : m' = { m with
    heap := m'.heap, freshState := m'.freshState, table := m'.table, freshRuntime := m'.freshRuntime }

namespace PrepareStep

theorem refl (m : Manager) : PrepareStep m m :=
  ⟨le_refl _, fun _ _ => rfl, fun _ _ => rfl, le_refl _, fun _ _ => rfl, rfl, le_refl _, rfl⟩

theorem trans {m m' m'' : Manager} (h : PrepareStep m m') (h' : PrepareStep m' m'') : PrepareStep m m'' := by
  refine ⟨h.fresh.trans h'.fresh, ?_, ?_, h.freshSeries.trans h'.freshSeries, ?_, h'.reports.trans h.reports,
    h.runtimes.trans h'.runtimes, ?_⟩
  · intro ref old
    exact (h.heap ref old).trans (h'.heap ref (lt_of_lt_of_le old h.fresh))
  · intro hi ref
    have hl : m'.Idle := by
      intro ref ha
      rw [h.active hi ref]
      exact hi ref (h.fresh.trans ha)
    rw [h'.active hl ref, h.active hi ref]
  · intro ref old
    rw [h'.series ref (lt_of_lt_of_le old h.freshSeries), h.series ref old]
  · rw [h'.rest, h.rest]

end PrepareStep

namespace Manager

theorem allocState_step (m : Manager) {state : PolicyState} (hi : state.active = 0) :
    PrepareStep m (m.allocState state).1 := by
  have ho : ∀ ref, ref ≠ m.freshState → (m.allocState state).1.heap ref = m.heap ref :=
    fun ref ne => Function.update_of_ne ne _ _
  refine ⟨Nat.le_succ _, ?_, ?_, le_refl _, fun _ _ => rfl, rfl, le_refl _, rfl⟩
  · intro ref old
    rw [ho ref (Nat.ne_of_lt old)]
    rfl
  · intro hu ref
    by_cases new : ref = m.freshState
    · rw [new, hu m.freshState (le_refl _)]
      exact (congrArg active (Function.update_self _ _ _)).trans hi
    · rw [ho ref new]

theorem allocSeries_step (m : Manager) (series : ReportSeries) : PrepareStep m (m.allocSeries series).1 := by
  refine ⟨le_refl _, fun _ _ => rfl, fun _ _ => rfl, Nat.le_succ _, ?_, rfl, le_refl _, rfl⟩
  intro _ old
  exact Function.update_of_ne (Nat.ne_of_lt old) _ _

theorem attach_step (m : Manager) (ref : Nat) (spec : Policy) :
    PrepareStep m (m.modifyState ref (attach spec)) := by
  have hs : ∀ other, SameButRolling (m.heap other) ((m.modifyState ref (attach spec)).heap other) := by
    intro other
    by_cases hh : other = ref
    · subst hh
      simpa [modifyState] using attach_sameButRolling spec _
    · have hk : (m.modifyState ref (attach spec)).heap other = m.heap other :=
        Function.update_of_ne hh _ _
      rw [hk]
      rfl
  refine ⟨le_refl _, fun other _ => hs other, fun _ other => ?_, le_refl _, fun _ _ => rfl, rfl, le_refl _, rfl⟩
  have eq := hs other
  rw [eq]

theorem loadStates_spec (file : StoreFile) (m : Manager) :
    PrepareStep m (m.loadStates file).1 ∧ (m.loadStates file).2.Pointers (m.loadStates file).1.freshState := by
  refine foldlRecOn
    (motive := fun acc : Manager × GoMap String Nat => PrepareStep m acc.1 ∧ acc.2.Pointers acc.1.freshState) _ _ ?_ ?_
  · exact ⟨PrepareStep.refl m, GoMap.Pointers.empty _⟩
  · rintro ⟨m', _⟩ ⟨hs, hk⟩ persisted _
    exact ⟨hs.trans (allocState_step m' rfl), hk.insertFresh persisted.2.id⟩

def tableWith (m : Manager) (reports : GoMap String Nat) : ReportTable := { m.table with reports := reports }

theorem loadReports_spec (file : StoreFile) (m : Manager) :
    PrepareStep m (m.loadReports file).1 ∧
      ((m.loadReports file).1.tableWith (m.loadReports file).2).WellFormed := by
  refine foldlRecOn (motive := fun acc : Manager × GoMap String Nat =>
    PrepareStep m acc.1 ∧ (acc.1.tableWith acc.2).WellFormed) _ _ ?_ ?_
  · exact ⟨PrepareStep.refl m, GoMap.Pointers.empty _⟩
  · rintro ⟨m', _⟩ ⟨hs, wf⟩ persisted _
    exact ⟨hs.trans (allocSeries_step m' persisted.2.load), wf.insertFresh persisted.2.key _⟩

structure Allocated (m : Manager) : Prop where
  runtime : ∀ p ∈ m.runtime.policies, p.state < m.freshState
  states : m.states.Pointers m.freshState
  table : m.table.WellFormed

theorem stageMaps_step (lib : Stdlib) (config : Config) (env : ConfigureEnv) (m : Manager) :
    PrepareStep m (m.stageMaps lib config env).1 := by
  unfold stageMaps
  split
  · split <;> exact PrepareStep.refl m
  · split
    · exact PrepareStep.refl m
    next file _ => exact (loadStates_spec file m).1.trans (loadReports_spec file (m.loadStates file).1).1

variable {lib : Stdlib} {m : Manager} {spec : Policy} {states : GoMap String Nat} {cutoff : Int} {acc : Manager × Stage}

theorem stageMaps_spec {config : Config} {env : ConfigureEnv} {maps : StageMaps}
    (states : m.states.Pointers m.freshState) (ht : m.table.WellFormed) (h : (m.stageMaps lib config env).2 = .ok maps) :
    maps.states.Pointers (m.stageMaps lib config env).1.freshState ∧
      ((m.stageMaps lib config env).1.tableWith maps.reports).WellFormed := by
  unfold stageMaps at h ⊢
  split at h
  next hre =>
    rw [if_pos hre]
    split at h
    · cases h
    next hl =>
      rw [if_neg hl]
      cases h
      exact ⟨states, ht⟩
  next hf =>
    rw [if_neg hf]
    split at h <;> cases h
    next file _ =>
      obtain ⟨_, hk⟩ := loadStates_spec file m
      obtain ⟨hr, wf⟩ := loadReports_spec file (m.loadStates file).1
      exact ⟨hk.mono hr.fresh, wf⟩

def Spares (lib : Stdlib) (cutoff : Int) (states : GoMap String Nat) (m : Manager) (spec : Policy) : Prop :=
  ∀ ref ∈ states.lookup spec.id, (m.heap ref).identity = policyIdentity lib spec →
    (m.heap ref).isOrphan cutoff = false

theorem isOrphan_sameButRolling {s s' : PolicyState} (hs : SameButRolling s s') (cutoff : Int) :
    s'.isOrphan cutoff = s.isOrphan cutoff := by
  rw [hs]
  rfl

theorem isOrphan_new (id identity : String) (generation : UInt64) (now cutoff : Int) :
    (newPolicyState id identity generation now).isOrphan cutoff = false := by
  simp [isOrphan, newPolicyState]

theorem stageState_step (lib : Stdlib) (now : Nat) (spec : Policy) (states : GoMap String Nat) (m : Manager) :
    PrepareStep m (m.stageState lib now spec states).1.1 := by
  simp only [stageState]
  split
  · exact allocState_step m rfl
  · split
    · exact PrepareStep.refl m
    · exact allocState_step m rfl

theorem stagePolicy_step (lib : Stdlib) (now : Nat) (acc : Manager × Stage) (spec : Policy) :
    PrepareStep acc.1 (stagePolicy lib now acc spec).1 := by
  have hs := stageState_step lib now spec acc.2.states acc.1
  unfold stagePolicy
  generalize acc.1.stageState lib now spec acc.2.states = result at hs ⊢
  exact hs.trans (attach_step result.1.1 result.1.2 spec)

structure StagedState (spec : Policy) (states : GoMap String Nat) (result : (Manager × Nat) × GoMap String Nat) :
    Prop where
  known : result.2.Pointers result.1.1.freshState
  lookup : ∀ id, result.2.lookup id = if id = spec.id then some result.1.2 else states.lookup id

theorem StagedState.here {result : (Manager × Nat) × GoMap String Nat} (hs : StagedState spec states result) :
    result.1.2 < result.1.1.freshState :=
  hs.known.allocated spec.id result.1.2 (by rw [hs.lookup, if_pos rfl])

theorem stageState_spec (hk : states.Pointers m.freshState) (lib : Stdlib) (now : Nat) (spec : Policy) :
    StagedState spec states (m.stageState lib now spec states) := by
  have hm : ∀ generation, StagedState spec states
      (m.allocState (newPolicyState spec.id (policyIdentity lib spec) generation (unixOf now)),
        states.insert spec.id m.freshState) :=
    fun generation => ⟨hk.insertFresh spec.id, fun id => GoMap.lookup_insert_eq _ _ _ _⟩
  simp only [stageState]
  split
  · exact hm 1
  next ht =>
    split
    next same =>
      refine ⟨hk, fun id => ?_⟩
      split
      next eq => rw [eq, ht]
      · rfl
    · exact hm _

theorem stageState_orphan (hs : Spares lib cutoff states m spec) (now : Nat) :
    ((m.stageState lib now spec states).1.1.heap (m.stageState lib now spec states).1.2).isOrphan cutoff = false := by
  have hm : ∀ generation, ((m.allocState (newPolicyState spec.id (policyIdentity lib spec) generation
      (unixOf now))).1.heap m.freshState).isOrphan cutoff = false := by
    intro generation
    have hc : (m.allocState (newPolicyState spec.id (policyIdentity lib spec) generation
        (unixOf now))).1.heap m.freshState = _ := Function.update_self _ _ _
    rw [hc]
    exact isOrphan_new _ _ _ _ _
  simp only [stageState]
  split
  · exact hm 1
  next ref ht =>
    split
    next same => exact hs ref ht same
    · exact hm _

structure StageMapped (stage : Stage) (bound : Nat) : Prop where
  known : stage.states.Pointers bound
  registered : ∀ p ∈ stage.runtime.policies, stage.states.lookup p.spec.id = some p.state

theorem stagePolicy_mapped (lib : Stdlib) (now : Nat) (hm : StageMapped acc.2 acc.1.freshState)
    (own : ∀ p ∈ acc.2.runtime.policies, p.spec.id ≠ spec.id) :
    StageMapped (stagePolicy lib now acc spec).2 (stagePolicy lib now acc spec).1.freshState := by
  have hs := stageState_spec hm.known lib now spec
  unfold stagePolicy
  generalize acc.1.stageState lib now spec acc.2.states = result at hs ⊢
  refine ⟨hs.known, ?_⟩
  intro p hp
  rcases mem_append.mp hp with old | new
  · simp only [hs.lookup, own p old]
    exact hm.registered p old
  · rw [mem_singleton.mp new]
    simp [hs.lookup, newRuntimePolicy]

structure StageInv (cutoff : Int) (base : Manager) (found : GoMap String Nat) (done : List Policy)
    (acc : Manager × Stage) : Prop where
  step : PrepareStep base acc.1
  specs : acc.2.runtime.policies.map RuntimePolicy.spec = done
  mapped : StageMapped acc.2 acc.1.freshState
  pending : ∀ id, id ∉ done.map Policy.id → acc.2.states.lookup id = found.lookup id
  orphan : ∀ p ∈ acc.2.runtime.policies, (acc.1.heap p.state).isOrphan cutoff = false

theorem stagePolicy_inv {base : Manager} {found : GoMap String Nat}
    {done : List Policy} (inv : StageInv cutoff base found done acc)
    (hf : spec.id ∉ done.map Policy.id) (hk : found.Pointers base.freshState)
    (hsp : Spares lib cutoff found base spec) (now : Nat) :
    StageInv cutoff base found (done ++ [spec]) (stagePolicy lib now acc spec) := by
  have hh : Spares lib cutoff acc.2.states acc.1 spec := by
    intro ref ht hi
    rw [inv.pending spec.id hf] at ht
    have same := inv.step.heap ref (hk.allocated spec.id ref ht)
    rw [isOrphan_sameButRolling same]
    refine hsp ref ht ?_
    rw [← hi, same]
  have own : ∀ p ∈ acc.2.runtime.policies, p.spec.id ≠ spec.id := by
    intro p hp eq
    apply hf
    rw [← eq, ← inv.specs, map_map]
    exact mem_map_of_mem hp
  have step := stagePolicy_step lib now acc spec
  have hm := stagePolicy_mapped lib now inv.mapped own
  have found := stageState_step lib now spec acc.2.states acc.1
  have hs := stageState_spec inv.mapped.known lib now spec
  have ho := stageState_orphan hh now
  unfold stagePolicy at step hm ⊢
  generalize acc.1.stageState lib now spec acc.2.states = result at step hm found hs ho ⊢
  obtain ⟨⟨m, ref⟩, _⟩ := result
  have ha := attach_step m ref spec
  refine ⟨inv.step.trans step, ?_, hm, ?_, ?_⟩
  · simp [inv.specs, newRuntimePolicy]
  · intro id hid
    simp only [map_append, mem_append, not_or] at hid
    have hot : id ≠ spec.id := fun eq => hid.2 (by simp [eq])
    simp only [hs.lookup, hot]
    exact inv.pending id hid.1
  · intro p hp
    have kept : ∀ r < m.freshState, ((m.modifyState ref (attach spec)).heap r).isOrphan cutoff =
        (m.heap r).isOrphan cutoff := fun r hr => isOrphan_sameButRolling (ha.heap r hr) cutoff
    rcases mem_append.mp hp with old | new
    · have hb := inv.mapped.known.allocated p.spec.id p.state (inv.mapped.registered p old)
      rw [kept p.state (lt_of_lt_of_le hb found.fresh), isOrphan_sameButRolling (found.heap p.state hb)]
      exact inv.orphan p old
    · rw [mem_singleton.mp new]
      exact (kept ref hs.here).trans ho

theorem stagePolicies_inv {base : Manager} {found : GoMap String Nat}
    (hk : found.Pointers base.freshState) (now : Nat) (todo done : List Policy)
    (hn : ((done ++ todo).map Policy.id).Nodup) (hs : ∀ spec ∈ todo, Spares lib cutoff found base spec)
    (inv : StageInv cutoff base found done acc) :
    StageInv cutoff base found (done ++ todo) (todo.foldl (stagePolicy lib now) acc) := by
  induction todo generalizing done acc with
  | nil => simpa using inv
  | cons spec todo ih =>
    have hsp : done ++ spec :: todo = (done ++ [spec]) ++ todo := by simp
    have hf : spec.id ∉ done.map Policy.id := by
      intro mem
      rw [map_append, nodup_append] at hn
      exact hn.2.2 _ mem spec.id (by simp) rfl
    have step := stagePolicy_inv inv hf hk (hs spec (by simp)) now
    rw [hsp] at hn ⊢
    exact ih (done ++ [spec]) hn (fun x hx => hs x (mem_cons_of_mem _ hx)) step

theorem stagePolicies_rest (lib : Stdlib) (now : Nat) (todo : List Policy) (acc : Manager × Stage) :
    let stage := (todo.foldl (stagePolicy lib now) acc).2
    stage = { acc.2 with
      states := stage.states, touched := stage.touched
      runtime := { acc.2.runtime with policies := stage.runtime.policies } } := by
  induction todo generalizing acc with
  | nil => rfl
  | cons spec _ ih =>
    have hs := ih (stagePolicy lib now acc spec)
    simp only [foldl_cons] at hs ⊢
    rw [hs]
    rfl

theorem fillStage_eq (lib : Stdlib) (config : Config) (now : Nat) (maps : StageMaps) (m : Manager) :
    ∃ acc, config.policies.foldl (stagePolicy lib now)
        ({ m with freshRuntime := m.freshRuntime + 1 }, m.openStage config maps) = acc ∧
      m.fillStage lib config now maps =
        (acc.1, { acc.2 with states := cleanupOrphans acc.1.heap config.reports.orphanRetention now acc.2.states }) :=
  ⟨_, rfl, rfl⟩

theorem runtimes_step (m : Manager) : PrepareStep m { m with freshRuntime := m.freshRuntime + 1 } :=
  ⟨le_refl _, fun _ _ => rfl, fun _ _ => rfl, le_refl _, fun _ _ => rfl, rfl, Nat.le_succ _, rfl⟩

theorem openStage_inv (cutoff : Int) (config : Config) (maps : StageMaps) (m : Manager)
    (hk : maps.states.Pointers m.freshState) :
    StageInv cutoff m maps.states [] ({ m with freshRuntime := m.freshRuntime + 1 }, m.openStage config maps) :=
  ⟨runtimes_step m, rfl, ⟨hk, fun p hp => by simp [openStage] at hp⟩, fun _ _ => rfl,
    fun p hp => by simp [openStage] at hp⟩

end Manager

structure Stage.Ready (stage : Stage) (m : Manager) : Prop where
  config : stage.runtime.config = stage.config
  specs : stage.runtime.policies.map RuntimePolicy.spec = (stage.config.elim [] Config.policies)
  states : stage.states.Pointers m.freshState
  policies : ∀ p ∈ stage.runtime.policies, p.state < m.freshState
  reports : (m.tableWith stage.reports).WellFormed
  closed : stage.config = none → stage.reuseStore = false ∧ stage.store = none

def Stage.Registered (stage : Stage) : Prop :=
  ∀ p ∈ stage.runtime.policies, stage.states.lookup p.spec.id = some p.state

namespace Manager

theorem spares_zero (lib : Stdlib) (states : GoMap String Nat) (m : Manager) (spec : Policy) : Spares lib 0 states m spec := by
  intro _ _ _
  simp only [isOrphan, Bool.and_eq_false_iff, decide_eq_false_iff_not]
  omega

theorem limitStagedReports_sub (series : Nat → ReportSeries) {reports : GoMap String Nat} {key : String} {ref : Nat}
    (h : (limitStagedReports series reports).lookup key = some ref) : reports.lookup key = some ref := by
  unfold limitStagedReports limitReports at h
  split at h
  · exact h
  · exact GoMap.lookup_eraseKeys h

theorem fillStage_ready (lib : Stdlib) (config : Config) {maps : StageMaps} {m : Manager}
    (hk : maps.states.Pointers m.freshState) (hr : (m.tableWith maps.reports).WellFormed) (now : Nat) :
    PrepareStep m (m.fillStage lib config now maps).1 ∧
      (m.fillStage lib config now maps).2.Ready (m.fillStage lib config now maps).1 := by
  obtain ⟨_, hl, eq⟩ := fillStage_eq lib config now maps m
  have inv := stagePolicies_inv hk now config.policies [] config.idsNodup
    (fun spec _ => spares_zero lib _ _ spec) (openStage_inv 0 config maps m hk)
  have rest := stagePolicies_rest lib now config.policies
    ({ m with freshRuntime := m.freshRuntime + 1 }, m.openStage config maps)
  rw [hl] at inv rest
  rw [eq]
  refine ⟨inv.step, ?_, ?_, ?_, ?_, ?_, ?_⟩
  · rw [rest]
    rfl
  · have hs := inv.specs
    rw [rest] at hs ⊢
    exact hs
  · refine inv.mapped.known.sub (fun id ref h => ?_) (le_refl _)
    rw [cleanupOrphans_lookup, Option.filter_eq_some_iff] at h
    exact h.1
  · intro p hp
    exact inv.mapped.known.allocated p.spec.id p.state (inv.mapped.registered p hp)
  · refine hr.sub ?_ inv.step.freshSeries
    intro _ _ h
    rw [rest] at h
    exact limitStagedReports_sub _ h
  · intro hn
    rw [rest] at hn
    cases hn

theorem fillStage_registered {lib : Stdlib} {config : Config} {maps : StageMaps} {m : Manager}
    (hk : maps.states.Pointers m.freshState) (now : Nat) (hs : ∀ spec ∈ config.policies,
      Spares lib (orphanCutoff now config.reports.orphanRetention) maps.states m spec) :
    (m.fillStage lib config now maps).2.Registered := by
  obtain ⟨_, hl, eq⟩ := fillStage_eq lib config now maps m
  have inv := stagePolicies_inv hk now config.policies [] config.idsNodup hs
    (openStage_inv (orphanCutoff now config.reports.orphanRetention) config maps m hk)
  rw [hl] at inv
  rw [eq]
  intro p hp
  simp only [cleanupOrphans_lookup, inv.mapped.registered p hp, Option.filter_some, inv.orphan p hp]
  rfl

theorem emptyStage_ready (m : Manager) :
    PrepareStep m m.emptyStage.1 ∧ m.emptyStage.2.Ready m.emptyStage.1 ∧ m.emptyStage.2.Registered := by
  refine ⟨runtimes_step m, ⟨rfl, rfl, GoMap.Pointers.empty _, ?_, GoMap.Pointers.empty _, fun _ => ⟨rfl, rfl⟩⟩, ?_⟩
  · intro p hp
    simp [emptyStage] at hp
  · intro p hp
    simp [emptyStage] at hp

/-- No state that the configuration takes over, from memory or from the store, is idle beyond the
retention. -/
def StagingSpares (lib : Stdlib) (config : Option Config) (now : Nat) (env : ConfigureEnv) (m : Manager) : Prop :=
  ∀ c ∈ config, c.enabled = true → ∀ maps ∈ (m.stageMaps lib c env).2.toOption, ∀ spec ∈ c.policies,
    Spares lib (orphanCutoff now c.reports.orphanRetention) maps.states (m.stageMaps lib c env).1 spec

theorem prepareConfiguration_spec {m : Manager} (ha : m.Allocated) (lib : Stdlib) (config : Option Config)
    (now : Nat) (env : ConfigureEnv) :
    PrepareStep m (m.prepareConfiguration lib config now env).1 ∧
      ∀ stage, (m.prepareConfiguration lib config now env).2 = .ok stage →
        stage.Ready (m.prepareConfiguration lib config now env).1 ∧
          (m.StagingSpares lib config now env → stage.Registered) := by
  have hn : PrepareStep m m.emptyStage.1 ∧ ∀ stage, (Except.ok m.emptyStage.2 : Except ManagerError Stage) = .ok stage →
      stage.Ready m.emptyStage.1 ∧ (m.StagingSpares lib config now env → stage.Registered) := by
    obtain ⟨step, hrd, hre⟩ := m.emptyStage_ready
    refine ⟨step, fun stage h => ?_⟩
    cases h
    exact ⟨hrd, fun _ => hre⟩
  unfold prepareConfiguration
  cases config with
  | none => exact hn
  | some c =>
    simp only
    split
    · exact hn
    next on =>
      have step := stageMaps_step lib c env m
      split
      next eq =>
        rw [eq] at step
        exact ⟨step, fun stage h => by cases h⟩
      next maps eq =>
        obtain ⟨hk, hr⟩ := stageMaps_spec ha.states ha.table
          (show (m.stageMaps lib c env).2 = .ok maps by rw [eq])
        rw [eq] at step hk hr
        obtain ⟨hf, hrd⟩ := fillStage_ready lib c hk hr now
        split
        · exact ⟨step.trans hf, fun stage h => by cases h⟩
        · refine ⟨step.trans hf, fun stage h => ?_⟩
          cases h
          refine ⟨hrd, fun hsp => ?_⟩
          apply fillStage_registered hk now
          have hs := hsp c rfl (by simpa using on) maps (by rw [eq]; rfl)
          rw [eq] at hs
          exact hs

end Manager

end AsterCore
