import AsterCore.TrafficSound

namespace AsterCore

open List Manager RuntimePolicy

section Own

variable {lib : Stdlib} {s : Shared} {a : Action}

variable {m : Manager} {stage : Stage}

theorem Manager.Stages.cleaned (h : m.Stages stage) (config : Config) (now : Nat) :
    m.Stages (m.cleanStage config now stage) := by
  refine ⟨h.newer, h.fresh, h.below, h.distinct, h.off, h.states.sub (fun id ref there => ?_) le_rfl, h.reports⟩
  simp only [cleanStage, cleanupOrphans_lookup, Option.filter_eq_some_iff] at there
  exact there.1

/-- A stage gets the next runtime reference. -/
theorem Manager.Sound.opens (sound : m.Sound lib)
    (ref : stage.runtime.ref = m.freshRuntime) (policies : stage.runtime.policies = [])
    (states : stage.states.Pointers m.freshState) (reports : (m.tableWith stage.reports).WellFormed) :
    (m.act lib .stageRuntime).Stages stage := by
  refine ⟨ref ▸ sound.fresh, ?_, ?_, ?_, fun _ => policies, states, reports⟩
  · rw [ref]
    exact Nat.lt_succ_self _
  · simp [policies]
  · simp [policies]

/-- One round of the loop over the policies of the new configuration. -/
theorem Manager.Fills.next {spec : Policy} {todo : List Policy} (now : Nat) (h : m.Fills stage (spec :: todo)) :
    (m.act lib (.stagePolicy now stage spec)).Fills (stagePolicy lib now (m, stage) spec).2 todo := by
  have step := stagePolicy_step lib now (m, stage) spec
  have rest := stagePolicies_rest lib now [spec] (m, stage)
  have own : ∀ p ∈ stage.runtime.policies, p.spec.id ≠ spec.id := by
    intro p hp eq
    have nodup := h.ids
    rw [map_append, nodup_append] at nodup
    exact nodup.2.2 p.spec.id (mem_map_of_mem (mem_map_of_mem hp)) spec.id (by simp) eq
  have before : StageMapped (m, stage).2 (m, stage).1.freshState := ⟨h.stages.states, h.registered⟩
  have mapped := stagePolicy_mapped lib now before own
  have specs : (stagePolicy lib now (m, stage) spec).2.runtime.policies.map RuntimePolicy.spec =
      stage.runtime.policies.map RuntimePolicy.spec ++ [spec] := by
    simp [stagePolicy, newRuntimePolicy]
  simp only [foldl_cons, foldl_nil] at rest
  have stages := h.stages.evolves (prepare_evolves step) (by rw [step.rest])
  have ids : ((stagePolicy lib now (m, stage) spec).2.runtime.policies.map RuntimePolicy.spec ++ todo).map Policy.id =
      (stage.runtime.policies.map RuntimePolicy.spec ++ spec :: todo).map Policy.id := by
    rw [specs]
    simp
  have on : (stagePolicy lib now (m, stage) spec).2.runtime.config ≠ none := by
    exact h.on
  refine ⟨⟨?_, ?_, ?_, ?_, fun none => absurd none on, mapped.known, ?_⟩, on, mapped.registered,
    by rw [ids]; exact h.ids⟩
  · rw [rest]
    exact stages.newer
  · rw [rest]
    exact stages.fresh
  · intro p hp
    exact mapped.known.allocated p.spec.id p.state (mapped.registered p hp)
  · -- policies with different identifiers have different entries in the map
    have nodup := h.ids
    rw [← ids, map_append, nodup_append] at nodup
    have byId := nodup.1
    rw [map_map] at byId
    rw [nodup_map_iff_inj_on (List.Nodup.of_map _ byId)]
    intro p hp q hq same
    have known := mapped.registered p hp
    rw [same] at known
    exact inj_on_of_nodup_map byId hp hq
      (mapped.known.distinct _ _ _ known (mapped.registered q hq))
  · rw [rest]
    exact stages.reports

/-- A step of `configure` fits the memory, and the call knows what it has to at its next point. -/
theorem ConfigurePc.own {config : Option Config} {env : ConfigureEnv} {pc pc' : ConfigurePc}
    (sound : s.manager.Sound lib) (good : pc.Good s.manager) (h : pc.next lib config env s = some (a, pc')) :
    a.Fits lib s.manager ∧ pc'.Good (s.manager.act lib a) ∧
      ((∀ r, a ≠ .publish r) ∨ Lock.configureMu ∈ pc.held ∧ Lock.recordGateWrite s.manager.runtime.ref ∈ pc.held) ∧
      (a.Quiet ∨ (∃ stage, a = .publishMaps stage) ∨ ∃ r, a = .publish r) := by
  have quiet : a.Quiet → pc'.Good (s.manager.act lib a) → a.Fits lib s.manager ∧ pc'.Good (s.manager.act lib a) ∧
      ((∀ r, a ≠ .publish r) ∨ Lock.configureMu ∈ pc.held ∧ Lock.recordGateWrite s.manager.runtime.ref ∈ pc.held) ∧
      (a.Quiet ∨ (∃ stage, a = .publishMaps stage) ∨ ∃ r, a = .publish r) := by
    intro calm good'
    refine ⟨calm.fits _ _, good', .inl ?_, .inl calm⟩
    rintro r rfl
    exact calm
  cases pc with
  | lock =>
    cases h
    exact quiet trivial trivial
  | start =>
    simp only [next] at h
    split at h <;> cases h
    · exact quiet trivial (sound.opens rfl rfl (GoMap.Pointers.empty _) (GoMap.Pointers.empty _))
    · exact quiet trivial trivial
  | stageMaps =>
    simp only [next] at h
    split at h <;> cases h
    · exact quiet trivial trivial
    next eq => exact quiet trivial (stageMaps_spec sound.states sound.table eq)
  | openStage config =>
    cases h
    refine quiet trivial ⟨sound.opens rfl rfl good.1 ?_, by rintro ⟨⟩, ?_, ?_⟩
    · exact good.2.sub (fun key ref there => limitStagedReports_sub _ there) le_rfl
    · intro p hp
      simp [Manager.openStage] at hp
    · simpa [Manager.openStage] using config.idsNodup
  | fillStage _ now _ todo =>
    cases todo with
    | nil =>
      cases h
      exact quiet trivial good.stages
    | cons =>
      cases h
      exact quiet trivial (good.next now)
  | cleanStage config now =>
    simp only [next] at h
    split at h <;> cases h
    · exact quiet trivial trivial
    · exact quiet trivial (Manager.Stages.cleaned good config now)
  | oldRuntime =>
    cases h
    exact quiet trivial ⟨good, rfl⟩
  | gate stage old | mu stage old =>
    cases h
    exact quiet trivial good
  | flushLocked _ old pc =>
    have calm := (pc.next_isFlush s env.flush).quiet
    simp only [next] at h
    generalize pc.next env.flush s = step at calm h
    obtain ⟨a', r⟩ := step
    have same : (s.manager.act lib a').runtime = s.manager.runtime :=
      act_runtime (by rintro r rfl; exact calm)
    have stages := good.1.evolves (fits_evolves (calm.fits lib _)) same
    have current : old = (s.manager.act lib a').runtime := good.2.trans same.symm
    cases r with
    | more =>
      cases h
      exact quiet calm ⟨stages, current⟩
    | done result =>
      cases result with
      | error =>
        cases h
        exact quiet calm trivial
      | ok =>
        cases h
        exact quiet calm ⟨stages, current⟩
  | publishMaps stage =>
    cases h
    have fits : (Action.publishMaps stage).Fits lib s.manager := ⟨good.1.states, good.1.reports⟩
    refine ⟨fits, ⟨good.1.evolves (fits_evolves fits) rfl, good.2⟩, .inl ?_, .inr (.inl ⟨stage, rfl⟩)⟩
    intro r eq
    cases eq
  | clock =>
    cases h
    exact quiet trivial good
  | touch _ _ _ todo =>
    cases todo with
    | nil =>
      cases h
      exact quiet trivial good
    | cons =>
      cases h
      exact quiet trivial ⟨good.1.evolves (act_evolves lib _ (by rintro r eq; cases eq)) rfl, good.2⟩
  | publish stage =>
    cases h
    refine ⟨⟨good.1.newer, good.1.fresh, good.1.below, good.1.distinct, good.1.off⟩, trivial, .inr ?_,
      .inr (.inr ⟨stage.runtime, rfl⟩)⟩
    rw [← good.2]
    simp [held]
  | dirty =>
    cases h
    exact quiet trivial trivial
  | returned => cases h

end Own

end AsterCore
