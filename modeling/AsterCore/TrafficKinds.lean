import AsterCore.TrafficProgram

namespace AsterCore

open RecordReportPc

namespace Action

/-- The actions that touch neither the sessions nor what is published. -/
def Quiet : Action → Prop
  | .enroll _ _ | .bind _ _ | .close _ | .publishMaps _ | .publish _ => False
  | _ => True

/-- The actions of `bindSession`. -/
def IsScan : Action → Prop
  | .look | .refresh _ _ | .active _ _ => True
  | _ => False

/-- The actions of the report calls. -/
def IsReport : Action → Prop
  | .look | .acquire _ | .bump _ _ _ _ => True
  | _ => False

/-- The actions of `flushLocked`. -/
def IsFlush : Action → Prop
  | .look | .dirty _ | .dropState _ | .rollup _ _ _ _ | .save _ | .dropOldest | .checkpoint _ => True
  | _ => False

/-- The actions of `configure` before and around the publication. -/
def IsStaging : Action → Prop
  | .stageMaps _ _ | .stageRuntime | .stagePolicy _ _ _ | .touch _ _ => True
  | _ => False

variable {a : Action}

theorem IsScan.quiet (h : a.IsScan) : a.Quiet := by
  cases a <;> trivial

theorem IsReport.quiet (h : a.IsReport) : a.Quiet := by
  cases a <;> trivial

theorem IsStaging.quiet (h : a.IsStaging) : a.Quiet := by
  cases a <;> trivial

theorem IsFlush.quiet (h : a.IsFlush) : a.Quiet := by
  cases a <;> trivial

end Action

section Kinds

variable {lib : Stdlib} {s : Shared} {session : Session} {k : Nat} {a : Action}

theorem BindSessionPc.next_isScan {scan : BindSessionPc} {r : Rest BindSessionPc SessionBinding} (h : scan.next s = (a, r)) :
    a.IsScan := by
  unfold next at h
  split at h <;> cases h <;> trivial

theorem RecordReportPc.next_isReport {pc : RecordReportPc} {increment : ReportIncrement} {keys : List String}
    {r : Rest RecordReportPc Unit} (h : pc.next increment keys s = (a, r)) : a.IsReport := by
  unfold next at h
  split at h
  · split at h <;> cases h <;> trivial
  all_goals
    cases h
    trivial

theorem FlushLockedPc.next_isFlush (s : Shared) (pc : FlushLockedPc) (env : FlushEnv) : (pc.next env s).1.IsFlush := by
  unfold next
  split
  · split <;> trivial
  · trivial
  · trivial
  · trivial
  · dsimp only; split <;> trivial
  · trivial
  · trivial
  · trivial
  · split <;> trivial
  · split <;> trivial
  · split <;> trivial
  · trivial
  · trivial

theorem CurrentBindingPc.Step.kind {pc : CurrentBindingPc} {r : Rest CurrentBindingPc (Option SessionBinding)}
    (h : pc.Step lib k session s a r) :
    a.IsScan ∨ a.IsReport ∨ ∃ previous next, pc = .store previous next ∧ a = .bind k (some next) := by
  cases h with
  | scan h | scanned h => exact .inl (BindSessionPc.next_isScan h)
  | report h | reported h => exact .inr (.inl (next_isReport h))
  | store => exact .inr (.inr ⟨_, _, rfl, rfl⟩)
  | _ => exact .inl trivial

theorem OpenPc.next_kind {flow : Flow} {pc pc' : OpenPc} (h : pc.next lib flow s = some (a, pc')) :
    a.IsScan ∨ a.IsReport ∨ ∃ b, a = .enroll flow b := by
  cases step_of_next h with
  | runtime => exact .inl trivial
  | scan hs | empty hs | scanned hs => exact .inl (BindSessionPc.next_isScan hs)
  | report hs | reported hs => exact .inr (.inl (next_isReport hs))
  | enroll => exact .inr (.inr ⟨_, rfl⟩)

/-- What `Record` does besides binding and reporting. -/
inductive RecordKind (k : Nat) (direction : Direction) (bytes : Int64) : RecordPc → Action → Prop
  | scan {pc : RecordPc} {a : Action} (h : a.IsScan) : RecordKind k direction bytes pc a
  | report {pc : RecordPc} {a : Action} (h : a.IsReport) : RecordKind k direction bytes pc a
  | store {previous : Option SessionBinding} {b : SessionBinding} :
    RecordKind k direction bytes (.currentBinding (.store previous b)) (.bind k (some b))
  | pass {b : SessionBinding} : RecordKind k direction bytes (.gateRuntime b) .pass
  | count {pc : RecordPc} {p : RuntimePolicy} {now : Nat} : RecordKind k direction bytes pc (.count p direction bytes now)
  | dirty {pc : RecordPc} : RecordKind k direction bytes pc (.dirty true)

theorem RecordPc.next_kind {direction : Direction} {bytes : Int64} {pc pc' : RecordPc}
    (h : pc.next lib k session direction bytes s = some (a, pc')) : RecordKind k direction bytes pc a := by
  cases step_of_next h with
  | binds step | unbound step | bound step =>
    rcases step.kind with hs | hr | ⟨previous, b, rfl, rfl⟩
    · exact .scan hs
    · exact .report hr
    · exact .store
  | pass => exact .pass
  | count => exact .count
  | report step | reported step | exceeding step | exceeded step => exact .report (next_isReport step)
  | exceeds | dirty => exact .dirty
  | _ => exact .scan trivial

theorem WaitPc.next_kind {served : Nat} {pc pc' : WaitPc} (h : pc.next lib k session served s = some (a, pc')) :
    a.IsScan ∨ a.IsReport ∨ ∃ previous b, pc = .currentBinding (.store previous b) ∧ a = .bind k (some b) := by
  cases step_of_next h with
  | binds step | unbound step | bound step =>
    rcases step.kind with hs | hr | ⟨previous, b, rfl, rfl⟩
    · exact .inl hs
    · exact .inr (.inl hr)
    · exact .inr (.inr ⟨previous, b, rfl, rfl⟩)
  | _ => exact .inl trivial

theorem ClosePc.next_kind {pc pc' : ClosePc} (h : pc.next k session = some (a, pc')) :
    a.IsScan ∨ a = .close k ∨ a = .bind k none := by
  cases step_of_next h with
  | mark => exact .inr (.inl rfl)
  | swap => exact .inr (.inr rfl)
  | _ => exact .inl trivial

/-- What `configure` does besides staging and flushing. -/
inductive ConfigureKind : ConfigurePc → Action → Prop
  | flush {pc : ConfigurePc} {a : Action} (h : a.IsFlush) : ConfigureKind pc a
  | stage {pc : ConfigurePc} {a : Action} (h : a.IsStaging) : ConfigureKind pc a
  | publishMaps {stage : Stage} {old : RuntimeState} : ConfigureKind (.publishMaps stage old) (.publishMaps stage)
  | publish {stage : Stage} {old : RuntimeState} : ConfigureKind (.publish stage old) (.publish stage.runtime)

theorem ConfigurePc.next_kind {config : Option Config} {env : ConfigureEnv} {pc pc' : ConfigurePc}
    (h : pc.next lib config env s = some (a, pc')) : ConfigureKind pc a := by
  cases pc with
  | start =>
    simp only [next] at h
    split at h <;> cases h
    · exact .stage trivial
    · exact .flush trivial
  | stageMaps config | openStage config maps =>
    cases h
    exact .stage trivial
  | fillStage _ _ _ todo =>
    cases todo <;> cases h
    · exact .flush trivial
    · exact .stage trivial
  | flushLocked _ _ pc =>
    have hf := pc.next_isFlush s env.flush
    simp only [next] at h
    generalize pc.next env.flush s = step at hf h
    obtain ⟨_, r⟩ := step
    cases r with
    | more =>
      cases h
      exact .flush hf
    | done result => cases result <;> cases h <;> exact .flush hf
  | touch _ _ _ todo =>
    cases todo <;> cases h
    · exact .flush trivial
    · exact .stage trivial
  | publishMaps =>
    cases h
    exact .publishMaps
  | publish =>
    cases h
    exact .publish
  | returned => cases h
  | _ =>
    cases h
    exact .flush trivial

theorem FlushPc.next_isFlush {env : FlushEnv} {pc pc' : FlushPc} (h : pc.next env s = some (a, pc')) : a.IsFlush := by
  cases pc with
  | lock =>
    cases h
    trivial
  | flushLocked pc =>
    have hf := pc.next_isFlush s env
    simp only [next] at h
    generalize pc.next env s = step at hf h
    obtain ⟨_, r⟩ := step
    cases r <;> cases h <;> exact hf
  | returned => cases h

end Kinds

end AsterCore
