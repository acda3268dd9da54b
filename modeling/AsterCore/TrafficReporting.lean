import AsterCore.TrafficKinds

namespace AsterCore

open BindSessionPc

structure ReportCall where
  increment : ReportIncrement
  keys : List String
  pc : RecordReportPc

def ReportCall.next (r : ReportCall) (s : Shared) : Action × Rest RecordReportPc Unit := r.pc.next r.increment r.keys s

def ReportCall.dated (r : ReportCall) : List (String × Nat) :=
  match r.pc with
  | .load time => time.elim [] (fun now => r.keys.map (·, now))
  | .clock => []
  | .loop now todo => todo.map (·, now)
  | .held now key _ todo => (key, now) :: todo.map (·, now)

def CurrentBindingPc.reporting : CurrentBindingPc → Option ReportCall
  | .report b pc => some ⟨.connections 1, b.reportKeys, pc⟩
  | _ => none

def OpenPc.reporting : OpenPc → Option ReportCall
  | .report b pc => some ⟨.connections 1, b.reportKeys, pc⟩
  | _ => none

def RecordPc.reporting (direction : Direction) (bytes : Int64) : RecordPc → Option ReportCall
  | .currentBinding pc => pc.reporting
  | .report b _ _ pc => some ⟨.transfer direction bytes, b.reportKeys, pc⟩
  | .exceeded b pc => some ⟨.exceeded, b.reportKeys, pc⟩
  | _ => none

def WaitPc.reporting : WaitPc → Option ReportCall
  | .currentBinding pc => pc.reporting
  | _ => none

def Call.reporting : Call → Option ReportCall
  | .opening _ pc => pc.reporting
  | .recording _ direction bytes pc => pc.reporting direction bytes
  | .waiting _ _ pc => pc.reporting
  | _ => none

def RecordPc.awaits : RecordPc → List (String × Nat)
  | .count b now _ _ _ => b.reportKeys.map (·, now)
  | .report b now crossed _ | .dirty b now crossed => if crossed then b.reportKeys.map (·, now) else []
  | _ => []

def Call.awaits : Call → List (String × Nat)
  | .recording _ _ _ pc => pc.awaits
  | _ => []

def Call.dated (t : Call) : List (String × Nat) := t.reporting.elim [] ReportCall.dated ++ t.awaits

def Action.Unreported : Action → Prop
  | .acquire _ | .bump _ _ _ _ => False
  | _ => True

theorem Action.IsScan.unreported {a : Action} (h : a.IsScan) : a.Unreported := by
  cases a <;> trivial

theorem Action.IsStaging.unreported {a : Action} (h : a.IsStaging) : a.Unreported := by
  cases a <;> trivial

theorem Action.IsFlush.unreported {a : Action} (h : a.IsFlush) : a.Unreported := by
  cases a <;> trivial

/-- Only the report calls touch the series for their own sake, and a step in one is a step of it. A
report call that starts has no time yet or writes what was due. -/
def Reports (s : Shared) (due : List (String × Nat)) (before : Option ReportCall) (a : Action)
    (after : Option ReportCall) : Prop :=
  match before with
  | some r =>
    a = (r.next s).1 ∧
      (r.next s).2.Post (fun pc => after = some { r with pc := pc }) (fun _ => after = none)
  | none => a.Unreported ∧ ∀ r ∈ after, (∃ time, r.pc = .load time) ∧ ∀ e ∈ r.dated, e ∈ due

section Reports

variable {lib : Stdlib} {s : Shared} {due : List (String × Nat)} {session : Session} {a : Action}

theorem reports_idle (hu : a.Unreported) : Reports s due none a none := by
  refine ⟨hu, ?_⟩
  intro r hr
  cases hr

theorem reports_start (hu : a.Unreported) (increment : ReportIncrement) (keys : List String) :
    Reports s due none a (some ⟨increment, keys, .load none⟩) := by
  refine ⟨hu, ?_⟩
  intro r hr
  cases hr
  exact ⟨⟨none, rfl⟩, nofun⟩

theorem reports_due (hu : a.Unreported) (increment : ReportIncrement) (keys : List String) (now : Nat) :
    Reports s (keys.map (·, now)) none a (some ⟨increment, keys, .load (some now)⟩) := by
  refine ⟨hu, ?_⟩
  intro r hr
  cases hr
  exact ⟨⟨some now, rfl⟩, fun e he => he⟩

theorem reports_next (due : List (String × Nat)) {increment : ReportIncrement} {keys : List String} {pc : RecordReportPc}
    {r : Rest RecordReportPc Unit}
    {after : Option ReportCall} (h : pc.next increment keys s = (a, r))
    (hp : r.Post (fun pc' => after = some ⟨increment, keys, pc'⟩) (fun _ => after = none)) :
    Reports s due (some ⟨increment, keys, pc⟩) a after := by
  unfold Reports
  simp only [ReportCall.next, h]
  exact ⟨trivial, hp⟩

theorem CurrentBindingPc.Step.reports {k : Nat} {pc : CurrentBindingPc} {r : Rest CurrentBindingPc (Option SessionBinding)}
    (h : pc.Step lib k session s a r) :
    r.Post (fun pc' => Reports s due pc.reporting a pc'.reporting) (fun _ => Reports s due pc.reporting a none) := by
  cases h with
  | scan hs | scanned hs => exact reports_idle (s := s) (next_isScan hs).unreported
  | released => exact reports_start (s := s) (a := .look) trivial _ _
  | report hs | reported hs => exact reports_next due hs rfl
  | _ => exact reports_idle (s := s) trivial

theorem OpenPc.next_reports {flow : Flow} {pc pc' : OpenPc} (h : pc.next lib flow s = some (a, pc')) :
    Reports s [] pc.reporting a pc'.reporting := by
  cases step_of_next h with
  | scan hs | empty hs => exact reports_idle (next_isScan hs).unreported
  | scanned hs => exact reports_start (next_isScan hs).unreported _ _
  | report hs | reported hs => exact reports_next _ hs rfl
  | _ => exact reports_idle trivial

theorem RecordPc.next_reports {k : Nat} {direction : Direction} {bytes : Int64} {pc pc' : RecordPc}
    (h : pc.next lib k session direction bytes s = some (a, pc')) :
    Reports s pc.awaits (pc.reporting direction bytes) a (pc'.reporting direction bytes) := by
  cases step_of_next h with
  | binds hs | unbound hs | bound hs => exact hs.reports
  | reports => exact reports_due (s := s) (a := .look) trivial _ _ _
  | report hs | reported hs | exceeding hs | exceeded hs => exact reports_next _ hs rfl
  | exceeds => exact reports_due (s := s) (a := .dirty true) trivial _ _ _
  | _ => exact reports_idle trivial

theorem WaitPc.next_reports {k served : Nat} {pc pc' : WaitPc} (h : pc.next lib k session served s = some (a, pc')) :
    Reports s [] pc.reporting a pc'.reporting := by
  cases step_of_next h with
  | binds hs | unbound hs | bound hs => exact hs.reports
  | _ => exact reports_idle trivial

theorem Call.next_reports {t t' : Call} (h : t.next lib s = some (a, t')) : Reports s t.awaits t.reporting a t'.reporting := by
  cases step_of_next h with
  | opening step => exact OpenPc.next_reports step
  | recording _ step => exact RecordPc.next_reports step
  | waiting _ step => exact WaitPc.next_reports step
  | closing _ step =>
    rcases ClosePc.next_kind step with hsc | rfl | rfl
    · exact reports_idle hsc.unreported
    · exact reports_idle trivial
    · exact reports_idle trivial
  | configuring step =>
    cases ConfigurePc.next_kind step with
    | flush hf => exact reports_idle hf.unreported
    | stage hs => exact reports_idle hs.unreported
    | _ => exact reports_idle trivial
  | flushing step => exact reports_idle (FlushPc.next_isFlush step).unreported

theorem Call.acquire_reporting {t t' : Call} {key : String} (h : t.next lib s = some (.acquire key, t')) :
    ∃ r now keys, t.reporting = some r ∧ r.pc = .loop now (key :: keys) := by
  have hr := next_reports h
  cases hh : t.reporting with
  | none =>
    rw [hh] at hr
    exact absurd hr.1 id
  | some r =>
    rw [hh] at hr
    obtain ⟨ha, _⟩ := hr
    obtain ⟨_, _, pc⟩ := r
    cases pc with
    | load =>
      simp only [ReportCall.next, RecordReportPc.next] at ha
      split at ha <;> cases ha
    | loop now todo =>
      cases todo with
      | nil => cases ha
      | cons _ todo =>
        cases ha
        exact ⟨_, now, todo, rfl, rfl⟩
    | _ => cases ha

end Reports

end AsterCore
