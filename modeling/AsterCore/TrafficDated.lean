import AsterCore.TrafficReporting

namespace AsterCore

open List

/-- The series that a call has asked for and is about to write to. -/
def Call.holding (t : Call) : Option (String × Nat) :=
  t.reporting.bind fun r =>
    match r.pc with
    | .held _ key ref _ => some (key, ref)
    | _ => none

structure SeriesRollup where
  reports : ReportsConfig
  now : Nat
  key : String
  ref : Nat

/-- The series that a `Flush` call is about to roll up. -/
def Call.rolls : Call → Option SeriesRollup
  | .flushing _ (.flushLocked (.rollup reports now (e :: _))) => some ⟨reports, now, e.1, e.2⟩
  | _ => none

/-- The actions that leave the report table and the published configuration alone. -/
def Action.Plain : Action → Prop
  | .acquire _ | .bump _ _ _ _ | .rollup _ _ _ _ | .dropOldest | .stageMaps _ _ | .stagePolicy _ _ _ | .publishMaps _
  | .publish _ => False
  | _ => True

section Steps

variable {lib : Stdlib} {s : Shared} {a : Action} {t t' : Call}

theorem Action.Plain.table {m : Manager} (h : a.Plain) : (m.act lib a).table = m.table := by
  cases a <;> first | rfl | exact h.elim

theorem Action.IsScan.plain (h : a.IsScan) : a.Plain := by
  cases a <;> trivial

theorem ReportCall.next_dated (r : ReportCall) {pc : RecordReportPc} (h : (r.next s).2 = .more pc) :
    ∀ e ∈ ({ r with pc := pc } : ReportCall).dated, e ∈ r.dated ∨ e.2 = s.clock := by
  obtain ⟨_, _, before⟩ := r
  intro e he
  cases before with
  | load time =>
    simp only [next, RecordReportPc.next] at h
    split at h <;> cases h
    cases time with
    | none => cases he
    | some => exact .inl he
  | clock =>
    cases h
    obtain ⟨_, _, rfl⟩ := mem_map.mp he
    exact .inr rfl
  | loop _ todo =>
    cases todo with
    | nil => cases h
    | cons key =>
      simp only [next, RecordReportPc.next, Rest.more.injEq] at h
      subst h
      cases found : (s.manager.table.reportSeries key).2 with
      | none =>
        rw [found] at he
        exact .inl (mem_cons_of_mem _ he)
      | some =>
        rw [found] at he
        exact .inl he
  | held =>
    cases h
    exact .inl (mem_cons_of_mem _ he)

theorem RecordPc.next_awaits {k : Nat} {session : Session} {direction : Direction} {bytes : Int64} {pc pc' : RecordPc}
    (h : pc.next lib k session direction bytes s = some (a, pc')) : ∀ e ∈ pc'.awaits, e ∈ pc.awaits ∨ e.2 = s.clock := by
  intro e he
  cases step_of_next h with
  | clock =>
    obtain ⟨_, _, rfl⟩ := mem_map.mp he
    exact .inr rfl
  | unreported | reports =>
    simp only [awaits] at he
    split at he
    · exact .inl he
    · cases he
  | count | report | reported => exact .inl he
  | _ => cases he

/-- A call that is going to write for a time it has read has read it before or reads it now. -/
theorem Call.next_dated (h : t.next lib s = some (a, t')) : ∀ e ∈ t'.dated, e ∈ t.dated ∨ e.2 = s.clock := by
  intro e he
  rcases mem_append.mp he with hr | ha
  · have hre := next_reports h
    cases haf : t'.reporting with
    | none =>
      rw [haf] at hr
      cases hr
    | some r' =>
      rw [haf] at hr hre
      cases hb : t.reporting with
      | none =>
        rw [hb] at hre
        exact .inl (mem_append_right _ ((hre.2 r' rfl).2 e hr))
      | some r =>
        rw [hb] at hre
        obtain ⟨_, hp⟩ := hre
        cases rest : (r.next s).2 with
        | done =>
          rw [rest] at hp
          cases hp
        | more =>
          rw [rest] at hp
          cases hp
          refine (r.next_dated rest e hr).imp_left fun old => mem_append_left _ ?_
          rw [hb]
          exact old
  · have hs : e ∈ t.awaits ∨ e.2 = s.clock := by
      cases step_of_next h with
      | recording _ hs => exact RecordPc.next_awaits hs e ha
      | _ => cases ha
    exact hs.imp_left (mem_append_right _)

/-- A call that is about to write to a series has just asked for it. -/
theorem Call.next_holding (h : t.next lib s = some (a, t')) :
    ∀ x ∈ t'.holding, a = .acquire x.1 ∧ (s.manager.table.reportSeries x.1).2 = some x.2 := by
  intro x hx
  have hr := next_reports h
  obtain ⟨r', ha, held⟩ := Option.bind_eq_some_iff.mp hx
  rw [ha] at hr
  cases hb : t.reporting with
  | none =>
    rw [hb] at hr
    obtain ⟨_, pc⟩ := (hr.2 r' rfl).1
    rw [pc] at held
    cases held
  | some r =>
    rw [hb] at hr
    obtain ⟨rfl, hp⟩ := hr
    obtain ⟨_, _, pc⟩ := r
    cases pc with
    | load time =>
      simp only [ReportCall.next, RecordReportPc.next] at hp
      split at hp <;> cases hp
      cases time <;> cases held
    | clock =>
      cases hp
      cases held
    | loop _ todo =>
      cases todo with
      | nil => cases hp
      | cons key =>
        simp only [ReportCall.next, Option.some.injEq] at hp
        subst hp
        cases hf : (s.manager.table.reportSeries key).2 with
        | none =>
          simp only [hf] at held
          cases held
        | some =>
          simp only [hf] at held
          cases held
          exact ⟨rfl, hf⟩
    | held =>
      cases hp
      cases held

theorem Call.next_bump {key : String} {ref now : Nat} {increment : ReportIncrement}
    (h : t.next lib s = some (.bump key ref now increment, t')) : t.holding = some (key, ref) ∧ (key, now) ∈ t.dated := by
  have hr := next_reports h
  cases hb : t.reporting with
  | none =>
    rw [hb] at hr
    exact absurd hr.1 id
  | some r =>
    rw [hb] at hr
    obtain ⟨ha, _⟩ := hr
    obtain ⟨_, _, pc⟩ := r
    cases pc with
    | load =>
      simp only [ReportCall.next, RecordReportPc.next] at ha
      split at ha <;> cases ha
    | loop _ todo => cases todo <;> cases ha
    | clock => cases ha
    | held =>
      cases ha
      unfold holding dated
      rw [hb]
      exact ⟨rfl, mem_append_left _ mem_cons_self⟩

end Steps

end AsterCore
