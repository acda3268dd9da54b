import AsterCore.TrafficSound

namespace AsterCore

open List BindSessionPc RecordReportPc Manager

section Own

variable {lib : Stdlib} {s : Shared} {session : Session} {a : Action}

variable {m : Manager} {k : Nat} {held : List Lock}

theorem Manager.Scans.next {flow : Flow} {scan : BindSessionPc} {r : Rest BindSessionPc SessionBinding}
    (h : m.Scans lib flow scan)
    (step : scan.next s = (a, r)) : r.Post (m.Scans lib flow) (m.Binds lib flow) := by
  unfold BindSessionPc.next at step
  split at step <;> cases step
  next here =>
    refine ⟨by simpa using h.runtime, ?_⟩
    rw [newBinding_policies, newBinding_runtime, ← h.policies, here, append_nil]
  · exact ⟨h.runtime, h.policies⟩
  · exact ⟨h.runtime, h.policies⟩
  next here _ =>
    refine ⟨h.runtime, ?_⟩
    rw [← h.policies, here]
    simp

theorem Manager.Knows.scans {r : RuntimeState} (h : m.Knows r) (flow : Flow) : m.Scans lib flow (bindSessionStart lib r flow) :=
  ⟨h, rfl⟩

/-- A step of a call on the session `k`: what it does fits the memory, and it changes the session only under its lock. -/
structure SessionAction (lib : Stdlib) (m : Manager) (k : Nat) (held : List Lock) (a : Action) : Prop where
  fits : a.Fits lib m
  quiet : a.Quiet ∨ ((∃ b, a = .bind k b) ∨ a = .close k) ∧ Lock.bindMu k ∈ held

theorem SessionAction.ofQuiet (quiet : a.Quiet) : SessionAction lib m k held a :=
  ⟨quiet.fits lib m, .inl quiet⟩

/-- What `currentBinding` knows after a step, in the memory before it. -/
def CurrentBindingPost (lib : Stdlib) (m : Manager) (session : Session) (a : Action) :
    Rest CurrentBindingPc (Option SessionBinding) → Prop :=
  Rest.Post (fun pc => pc.Good lib m session ∧ (¬ a.Quiet → pc.watches = false))
    (fun b => a.Quiet ∧ (∀ b' ∈ b, m.Binds lib session.flow b') ∧ (b = none → session.closed = true))

theorem CurrentBindingPc.Step.own {pc : CurrentBindingPc} {r : Rest CurrentBindingPc (Option SessionBinding)}
    (sound : s.manager.Sound lib) (there : s.manager.sessions[k]? = some session) (good : pc.Good lib s.manager session)
    (h : pc.Step lib k session s a r) :
    SessionAction lib s.manager k (pc.held k) a ∧ CurrentBindingPost lib s.manager session a r := by
  have bound : ∀ b ∈ session.binding, s.manager.Binds lib session.flow b :=
    sound.sessions session (mem_of_getElem? there)
  have some : ∀ r : RuntimeState, session.binding.any (·.isFor r) = true → session.binding ≠ none := by
    intro r current none
    simp [none] at current
  have calm : a.Quiet → CurrentBindingPost lib s.manager session a r →
      SessionAction lib s.manager k (pc.held k) a ∧ CurrentBindingPost lib s.manager session a r :=
    fun quiet post => ⟨.ofQuiet quiet, post⟩
  cases h with
  | closed shut | closedLocked shut => exact calm trivial ⟨trivial, by simp, fun _ => shut⟩
  | opened => exact calm trivial ⟨trivial, absurd trivial⟩
  | runtime => exact calm trivial ⟨sound.runtime, fun _ => rfl⟩
  | current same | currentLocked same => exact calm trivial ⟨trivial, bound, fun none => absurd none (some _ same)⟩
  | stale | lock => exact calm trivial ⟨trivial, fun _ => rfl⟩
  | openedLocked opened => exact calm trivial ⟨opened, absurd trivial⟩
  | runtimeLocked => exact calm trivial ⟨⟨sound.runtime, good⟩, absurd trivial⟩
  | staleLocked => exact calm trivial ⟨⟨good.1.scans session.flow, rfl, good.2⟩, absurd trivial⟩
  | scan step | scanned step =>
    have quiet := (next_isScan step).quiet
    exact calm quiet ⟨⟨good.1.next step, good.2⟩, absurd quiet⟩
  | store =>
    refine ⟨⟨?_, Or.inr ⟨Or.inl ⟨_, rfl⟩, mem_singleton.mpr rfl⟩⟩, ⟨good.1, ?_⟩, fun _ => rfl⟩
    · intro _ there' b hb
      rw [there] at there'
      cases there'
      cases hb
      exact good.1
    · rw [← good.2.1]
      cases h : session.binding with
      | none => simp
      | some b => exact (bound b h).below
  | release => exact calm trivial ⟨⟨good.1, fun q hq => good.2 q (mem_cons_of_mem _ hq)⟩, fun _ => rfl⟩
  | released => exact calm trivial ⟨good.1, fun _ => rfl⟩
  | report step => exact calm (next_isReport step).quiet ⟨good, fun _ => rfl⟩
  | reported step =>
    have quiet := (next_isReport step).quiet
    refine calm quiet ⟨quiet, ?_, fun none => by cases none⟩
    intro b hb
    cases hb
    exact good

/-- The session `k` after a step of a call on it. -/
theorem SessionAction.after (act : SessionAction lib m k held a) (ht : m.sessions[k]? = some session) :
    ∃ session', (m.act lib a).sessions[k]? = some session' ∧ session'.flow = session.flow ∧
      (session.closed = true → session'.closed = true) ∧ (a.Quiet → session' = session) := by
  by_cases hq : a.Quiet
  · refine ⟨session, act_session ?_ ?_ ht, rfl, id, fun _ => rfl⟩
    · rintro b rfl
      exact hq
    · rintro rfl
      exact hq
  · obtain ⟨session', ht', hf, hc⟩ := (fits_evolves act.fits).sessions k session ht
    exact ⟨session', ht', hf, hc, fun q => absurd q hq⟩

theorem SessionAction.runtime (act : SessionAction lib m k held a) : (m.act lib a).runtime = m.runtime := by
  apply act_runtime
  rintro r rfl
  rcases act.quiet with quiet | ⟨⟨b, eq⟩ | eq, _⟩
  · exact quiet
  · cases eq
  · cases eq

section

variable (sound : s.manager.Sound lib)

include sound

section

variable (there : s.manager.sessions[k]? = some session)

include there

/-- A step of `Record` keeps what the call knows, and a call that has changed the session watches it no more. -/
theorem RecordPc.own {direction : Direction} {bytes : Int64} {pc pc' : RecordPc}
    (good : pc.Good lib s.manager session bytes) (h : pc.next lib k session direction bytes s = some (a, pc')) :
    SessionAction lib s.manager k (pc.held k) a ∧ pc'.Good lib s.manager session bytes ∧
      (¬ a.Quiet → pc'.watches = false) := by
  have hc : a.Quiet → pc'.Good lib s.manager session bytes → SessionAction lib s.manager k (pc.held k) a ∧
      pc'.Good lib s.manager session bytes ∧ (¬ a.Quiet → pc'.watches = false) :=
    fun hq hg' => ⟨.ofQuiet hq, hg', absurd hq⟩
  cases step_of_next h with
  | refuse hn => exact hc trivial (.inl hn)
  | binds hs =>
    obtain ⟨act, hp⟩ := hs.own sound there good
    exact ⟨act, hp.1, hp.2⟩
  | unbound hs =>
    obtain ⟨_, hq, _, closed⟩ := hs.own sound there good
    exact hc hq (.inr (closed rfl))
  | bound hs =>
    obtain ⟨_, hq, bound, _⟩ := hs.own sound there good
    exact hc hq (bound _ rfl)
  | start | closed | back => exact hc trivial trivial
  | gate | opened | exceeds => exact hc trivial good
  | pass same =>
    have bound := good
    exact hc trivial ⟨bound, bound.runtime.current same⟩
  | clock => exact hc trivial ⟨good.1, good.2, rfl⟩
  | unreported | reports => exact hc trivial ⟨good.1, good.2.1⟩
  | count =>
    refine hc trivial ⟨good.1, good.2.1, ?_⟩
    rw [← good.2.2]
    simp
  | report hs | reported hs | exceeding hs => exact hc (next_isReport hs).quiet good
  | exceeded hs => exact hc (next_isReport hs).quiet good.1
  | dirty => exact hc trivial good.1

theorem WaitPc.own {served : Nat} {pc pc' : WaitPc} (good : pc.Good lib s.manager session)
    (h : pc.next lib k session served s = some (a, pc')) :
    SessionAction lib s.manager k (pc.held k) a ∧ pc'.Good lib s.manager session ∧
      (¬ a.Quiet → pc'.watches = false) := by
  have calm : a.Quiet → pc'.Good lib s.manager session → SessionAction lib s.manager k (pc.held k) a ∧
      pc'.Good lib s.manager session ∧ (¬ a.Quiet → pc'.watches = false) :=
    fun quiet good' => ⟨.ofQuiet quiet, good', fun loud => absurd quiet loud⟩
  cases step_of_next h with
  | binds step =>
    obtain ⟨act, post⟩ := step.own sound there good
    exact ⟨act, post.1, post.2⟩
  | unbound step | bound step => exact calm (step.own sound there good).2.1 trivial
  | _ => exact calm trivial trivial

theorem ClosePc.own {pc pc' : ClosePc} (good : pc.Good s.manager session) (h : pc.next k session = some (a, pc')) :
    SessionAction lib s.manager k (pc.held k) a ∧
      ∃ session', (s.manager.act lib a).sessions[k]? = some session' ∧ pc'.Good (s.manager.act lib a) session' := by
  cases step_of_next h with
  | lock | marked | released => exact ⟨.ofQuiet trivial, session, there, trivial⟩
  | mark =>
    refine ⟨⟨trivial, .inr ⟨.inr rfl, mem_singleton.mpr rfl⟩⟩, { session with closed := true }, ?_, rfl⟩
    simp [act, modifySession, there]
  | swap =>
    refine ⟨⟨(fun _ _ b hb => by cases hb), Or.inr ⟨Or.inl ⟨none, rfl⟩, mem_singleton.mpr rfl⟩⟩,
      { session with binding := none }, ?_, good, ?_⟩
    · simp [act, modifySession, there]
    · cases h : session.binding with
      | none => simp
      | some b => exact (sound.sessions session (mem_of_getElem? there) b h).below
  | release => exact ⟨.ofQuiet trivial, session, there, good.1, fun q hq => good.2 q (mem_cons_of_mem _ hq)⟩

end

theorem OpenPc.own {flow : Flow} {pc pc' : OpenPc} (good : pc.Good lib s.manager flow)
    (h : pc.next lib flow s = some (a, pc')) :
    a.Fits lib s.manager ∧ (a.Quiet ∨ ∃ b, a = .enroll flow b) ∧ pc'.Good lib s.manager flow := by
  have calm : a.Quiet → pc'.Good lib s.manager flow → a.Fits lib s.manager ∧ (a.Quiet ∨ ∃ b, a = .enroll flow b) ∧
      pc'.Good lib s.manager flow := fun quiet good' => ⟨quiet.fits _ _, .inl quiet, good'⟩
  cases step_of_next h with
  | runtime => exact calm trivial (sound.runtime.scans flow)
  | scan step | scanned step => exact calm (next_isScan step).quiet (Manager.Scans.next good step)
  | empty step => exact calm (next_isScan step).quiet trivial
  | report step | reported step => exact calm (next_isReport step).quiet good
  | enroll => exact ⟨good, .inr ⟨_, rfl⟩, trivial⟩

end

end Own

end AsterCore
