import AsterCore.TrafficManager

namespace AsterCore

open ReportTable

/-- A relation between policy states that every quota refresh and every change of the number of connections respects. -/
structure SessionRel (R : PolicyState → PolicyState → Prop) : Prop where
  refl : ∀ s, R s s
  trans : ∀ {s t u}, R s t → R t u → R s u
  refresh : ∀ (p : RuntimePolicy) (now : Nat) (s : PolicyState), R s (p.refreshQuota now s)
  active : ∀ (s : PolicyState) (active : Int), R s { s with active := active }

theorem sessionRel_true : SessionRel (fun _ _ => True) :=
  ⟨fun _ => trivial, fun _ _ => trivial, fun _ _ _ => trivial, fun _ _ => trivial⟩

/-- What a call on a session may change without counting a transfer: the policy states, as far as `R` allows, the sessions and
the reports. -/
structure SessionStep (R : PolicyState → PolicyState → Prop) (m m' : Manager) : Prop where
  heap : ∀ ref, R (m.heap ref) (m'.heap ref)
  table : m.table.WellFormed → m'.table.WellFormed
  rest : m' = { m with heap := m'.heap, sessions := m'.sessions, table := m'.table }

namespace SessionStep

variable {R : PolicyState → PolicyState → Prop} {m m' m'' : Manager}

theorem refl (rel : SessionRel R) (m : Manager) : SessionStep R m m := ⟨fun _ => rel.refl _, id, rfl⟩

theorem trans (rel : SessionRel R) (h : SessionStep R m m') (h' : SessionStep R m' m'') : SessionStep R m m'' := by
  refine ⟨fun ref => rel.trans (h.heap ref) (h'.heap ref), fun wf => h'.table (h.table wf), ?_⟩
  rw [h'.rest, h.rest]

theorem foldl {α : Type} (rel : SessionRel R) {f : Manager → α → Manager}
    (hs : ∀ m a, SessionStep R m (f m a)) (l : List α) (m : Manager) : SessionStep R m (l.foldl f m) :=
  List.foldlRecOn l f (refl rel m) (fun _ h a _ => h.trans rel (hs _ a))

theorem runtime (h : SessionStep R m m') : m'.runtime = m.runtime := by rw [h.rest]

theorem states (h : SessionStep R m m') : m'.states = m.states := by rw [h.rest]

theorem store (h : SessionStep R m m') : m'.store = m.store := by rw [h.rest]

theorem dirty (h : SessionStep R m m') : m'.dirty = m.dirty := by rw [h.rest]

theorem freshState (h : SessionStep R m m') : m'.freshState = m.freshState := by rw [h.rest]

end SessionStep

namespace Manager

variable {R : PolicyState → PolicyState → Prop}

section

variable (rel : SessionRel R)

include rel

theorem modifyState_step (m : Manager) (ref : Nat) {f : PolicyState → PolicyState}
    (hr : R (m.heap ref) (f (m.heap ref))) : SessionStep R m (m.modifyState ref f) := by
  refine ⟨fun other => ?_, id, rfl⟩
  by_cases hs : other = ref
  · subst hs
    simpa [modifyState] using hr
  · simpa [modifyState, hs] using rel.refl _

theorem refreshQuota_step (now : Nat) (m : Manager) (p : RuntimePolicy) : SessionStep R m (m.refreshQuota now p) :=
  modifyState_step rel m p.state (rel.refresh p now _)

theorem addActive_step (delta : Int) (m : Manager) (p : RuntimePolicy) : SessionStep R m (m.addActive delta p) :=
  modifyState_step rel m p.state (rel.active _ _)

theorem bindSession_step (lib : Stdlib) (runtime : RuntimeState) (flow : Flow) (now : Nat)
    (m : Manager) : SessionStep R m (m.bindSession lib runtime flow now).1 :=
  SessionStep.foldl rel
    (fun m p => (refreshQuota_step rel now m p).trans rel (addActive_step rel 1 (m.refreshQuota now p) p)) _ m

theorem release_step (m : Manager) (binding : Option SessionBinding) : SessionStep R m (m.releaseSessionBinding binding) := by
  cases binding with
  | none => exact SessionStep.refl rel m
  | some binding => exact SessionStep.foldl rel (addActive_step rel (-1)) binding.policies m

theorem openSession_step (lib : Stdlib) (flow : Flow) (now : Nat) (m : Manager) :
    SessionStep R m (m.openSession lib flow now).1 := by
  have hb := bindSession_step rel lib m.runtime flow now m
  unfold openSession
  simp only
  split
  · exact hb
  · exact hb.trans rel ⟨fun _ => rel.refl _, fun wf => recordReport_wellFormed wf _ _ _ _, rfl⟩

theorem currentBinding_step (lib : Stdlib) (s now : Nat) (m : Manager) : SessionStep R m (m.currentBinding lib s now).1 := by
  unfold currentBinding
  split
  · exact SessionStep.refl rel m
  next session _ =>
    split
    · exact SessionStep.refl rel m
    · split
      · exact SessionStep.refl rel m
      · have hb := bindSession_step rel lib m.runtime session.flow now m
        have hs : SessionStep R m ((m.bindSession lib m.runtime session.flow now).1.setSession s
            { session with binding := some (m.bindSession lib m.runtime session.flow now).2 }) :=
          hb.trans rel ⟨fun _ => rel.refl _, id, rfl⟩
        have hr := hs.trans rel (release_step rel _ session.binding)
        exact hr.trans rel ⟨fun _ => rel.refl _, fun wf => recordReport_wellFormed wf _ _ _ _, rfl⟩

theorem wait_step (lib : Stdlib) (s served now : Nat) (m : Manager) : SessionStep R m (m.wait lib s served now) := by
  have hb := currentBinding_step rel lib s now m
  unfold wait
  split
  next eq =>
    rw [eq] at hb
    exact hb
  next m' _ eq =>
    rw [eq] at hb
    refine hb.trans rel (SessionStep.foldl rel ?_ _ m')
    intro m p
    split
    · exact refreshQuota_step rel now m p
    · exact SessionStep.refl rel m

theorem status_step (now : Nat) (m : Manager) : SessionStep R m (m.status now) :=
  SessionStep.foldl rel (refreshQuota_step rel now) m.runtime.policies m

theorem closeSession_step (s : Nat) (m : Manager) : SessionStep R m (m.closeSession s) := by
  unfold closeSession
  split
  · exact SessionStep.refl rel m
  next session _ =>
    split
    · exact SessionStep.refl rel m
    · have hm : SessionStep R m (m.setSession s { session with binding := none, closed := true }) :=
        ⟨fun _ => rel.refl _, id, rfl⟩
      exact hm.trans rel (release_step rel _ session.binding)

end

theorem recordPolicies_step (direction : Direction) (bytes : Int64) (now : Nat) (m : Manager) (policies : List RuntimePolicy) :
    SessionStep (fun _ _ => True) m (policies.foldl (recordPolicy direction bytes now) (m, false)).1 := by
  refine List.foldlRecOn (motive := fun acc : Manager × Bool => SessionStep _ m acc.1) policies _ ?_ ?_
  · exact SessionStep.refl sessionRel_true m
  · intro acc h p _
    refine h.trans sessionRel_true ?_
    simp only [recordPolicy]
    exact modifyState_step sessionRel_true acc.1 p.state trivial

theorem recordBound_rest (binding : SessionBinding) (direction : Direction) (bytes : Int64) (now : Nat) (m : Manager) :
    m.recordBound binding direction bytes now =
      { (binding.policies.foldl (recordPolicy direction bytes now) (m, false)).1 with
        table := (m.recordBound binding direction bytes now).table, dirty := true } := by
  unfold recordBound
  simp only
  split <;> split <;> rfl

theorem recordBound_table (binding : SessionBinding) (direction : Direction) (bytes : Int64) (now : Nat)
    {m : Manager} (wf : m.table.WellFormed) : (m.recordBound binding direction bytes now).table.WellFormed := by
  have hc := (recordPolicies_step direction bytes now m binding.policies).table wf
  unfold recordBound
  simp only
  split <;> split
  · exact recordReport_wellFormed hc _ _ _ _
  · exact recordReport_wellFormed (recordReport_wellFormed hc _ _ _ _) _ _ _ _
  · exact hc
  · exact recordReport_wellFormed hc _ _ _ _

/-- Without a binding nothing has happened. -/
theorem currentBinding_none {lib : Stdlib} {s now : Nat} {m m' : Manager}
    (h : m.currentBinding lib s now = (m', none)) : m' = m := by
  unfold currentBinding at h
  split at h
  · exact (Prod.mk.inj h).1.symm
  next session there =>
    split at h
    · exact (Prod.mk.inj h).1.symm
    · split at h
      · exact (Prod.mk.inj h).1.symm
      · cases (Prod.mk.inj h).2

/-- `Session.Record` either does nothing or raises the flag. -/
theorem record_cases (lib : Stdlib) (s : Nat) (direction : Direction) (bytes : Int64) (now : Nat) (m : Manager) :
    m.record lib s direction bytes now = m ∨
      (m.record lib s direction bytes now).dirty = true ∧
        SessionStep (fun _ _ => True) m { m.record lib s direction bytes now with dirty := m.dirty } := by
  unfold record
  split
  · exact .inl rfl
  · split
    next eq => exact .inl (currentBinding_none eq)
    next m' binding eq =>
      have hb := currentBinding_step sessionRel_true lib s now m
      rw [eq] at hb
      have hc := hb.trans sessionRel_true
        (recordPolicies_step direction bytes now m' binding.policies)
      refine .inr ⟨by rw [recordBound_rest], fun _ => trivial, fun wf => ?_, ?_⟩
      · exact recordBound_table binding direction bytes now (hb.table wf)
      · rw [recordBound_rest, hc.rest]

end Manager

end AsterCore
