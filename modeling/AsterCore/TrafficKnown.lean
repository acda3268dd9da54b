import AsterCore.TrafficKinds
import AsterCore.TrafficStaging

namespace AsterCore

open List

namespace Manager

/-- A runtime that is current or was current before. References grow with every publication, so
one that has the reference of the current runtime is the current runtime. -/
structure Knows (m : Manager) (r : RuntimeState) : Prop where
  old : r.ref ≤ m.runtime.ref
  current : r.ref = m.runtime.ref → r = m.runtime
  below : ∀ p ∈ r.policies, p.state < m.freshState
  distinct : (r.policies.map RuntimePolicy.state).Nodup
  off : r.config = none → r.policies = []

structure Binds (lib : Stdlib) (m : Manager) (flow : Flow) (b : SessionBinding) : Prop where
  runtime : m.Knows b.runtime
  policies : b.policies = b.runtime.matched lib flow

structure Scans (lib : Stdlib) (m : Manager) (flow : Flow) (scan : BindSessionPc) : Prop where
  runtime : m.Knows scan.runtime
  policies : scan.counted ++ scan.todo = scan.runtime.matched lib flow

structure Stages (m : Manager) (stage : Stage) : Prop where
  newer : m.runtime.ref < stage.runtime.ref
  fresh : stage.runtime.ref < m.freshRuntime
  below : ∀ p ∈ stage.runtime.policies, p.state < m.freshState
  distinct : (stage.runtime.policies.map RuntimePolicy.state).Nodup
  off : stage.runtime.config = none → stage.runtime.policies = []
  states : stage.states.Pointers m.freshState
  reports : (m.tableWith stage.reports).WellFormed

structure Sound (lib : Stdlib) (m : Manager) : Prop where
  runtime : m.Knows m.runtime
  fresh : m.runtime.ref < m.freshRuntime
  states : m.states.Pointers m.freshState
  table : m.table.WellFormed
  sessions : ∀ session ∈ m.sessions, ∀ b ∈ session.binding, m.Binds lib session.flow b

structure Evolves (m m' : Manager) : Prop where
  states : m.freshState ≤ m'.freshState
  series : m.table.fresh ≤ m'.table.fresh
  runtimes : m.freshRuntime ≤ m'.freshRuntime
  runtime : m'.runtime = m.runtime ∨ m.runtime.ref < m'.runtime.ref
  sessions : ∀ (k : Nat) session, m.sessions[k]? = some session → ∃ session', m'.sessions[k]? = some session' ∧
    session'.flow = session.flow ∧ (session.closed = true → session'.closed = true)

section Evolves

variable {lib : Stdlib} {m m' : Manager}

theorem Knows.evolves {r : RuntimeState} (h : m.Knows r) (e : Evolves m m') : m'.Knows r := by
  have hb : ∀ p ∈ r.policies, p.state < m'.freshState := fun p hp => lt_of_lt_of_le (h.below p hp) e.states
  rcases e.runtime with hs | newer
  · exact ⟨hs ▸ h.old, hs ▸ h.current, hb, h.distinct, h.off⟩
  · have older := h.old
    exact ⟨by omega, fun eq => by omega, hb, h.distinct, h.off⟩

variable {flow : Flow}

theorem Binds.evolves {b : SessionBinding} (h : m.Binds lib flow b) (e : Evolves m m') : m'.Binds lib flow b :=
  ⟨h.runtime.evolves e, h.policies⟩

theorem Scans.evolves {scan : BindSessionPc} (h : m.Scans lib flow scan) (e : Evolves m m') : m'.Scans lib flow scan :=
  ⟨h.runtime.evolves e, h.policies⟩

theorem Binds.below {b : SessionBinding} (h : m.Binds lib flow b) : ∀ p ∈ b.policies, p.state < m.freshState := by
  intro p hp
  rw [h.policies] at hp
  exact h.runtime.below p (RuntimeState.matched_subset hp)

theorem Scans.below {scan : BindSessionPc} (h : m.Scans lib flow scan) : ∀ p ∈ scan.counted, p.state < m.freshState := by
  intro p hp
  have hm : p ∈ scan.runtime.matched lib flow := by
    rw [← h.policies]
    exact mem_append_left _ hp
  exact h.runtime.below p (RuntimeState.matched_subset hm)

theorem Stages.evolves {stage : Stage} (h : m.Stages stage) (e : Evolves m m') (hs : m'.runtime = m.runtime) :
    m'.Stages stage :=
  ⟨hs ▸ h.newer, lt_of_lt_of_le h.fresh e.runtimes, fun p hp => lt_of_lt_of_le (h.below p hp) e.states, h.distinct,
    h.off, h.states.mono e.states, GoMap.Pointers.mono h.reports e.series⟩

theorem prepare_evolves (hs : PrepareStep m m') : Evolves m m' := by
  refine ⟨hs.fresh, hs.freshSeries, hs.runtimes, .inl (by rw [hs.rest]), fun k session ht => ?_⟩
  exact ⟨session, by rw [hs.rest]; exact ht, rfl, id⟩

theorem evolves_modifySession {s : Nat} {f : Session → Session} (flow : ∀ session, (f session).flow = session.flow)
    (hc : ∀ session, session.closed = true → (f session).closed = true) : Evolves m (m.modifySession s f) := by
  refine ⟨le_refl _, le_refl _, le_refl _, .inl rfl, fun k session ht => ?_⟩
  simp only [modifySession, getElem?_modify, ht, Option.map_eq_map]
  split
  · exact ⟨f session, rfl, flow session, hc session⟩
  · exact ⟨session, rfl, rfl, id⟩

theorem evolves_rest (hst : m.freshState = m'.freshState) (hse : m.table.fresh ≤ m'.table.fresh)
    (hr : m.freshRuntime ≤ m'.freshRuntime) (hru : m'.runtime = m.runtime) (hs : m'.sessions = m.sessions) : Evolves m m' :=
  ⟨le_of_eq hst, hse, hr, .inl hru, fun _ session ht => ⟨session, hs ▸ ht, rfl, id⟩⟩

theorem act_evolves (lib : Stdlib) (m : Manager) {a : Action}
    (hn : ∀ r, a = .publish r → m.runtime.ref < r.ref) : Evolves m (m.act lib a) := by
  cases a with
  | acquire key =>
    exact evolves_rest rfl (m.table.reportSeries_fresh key) le_rfl rfl rfl
  | enroll =>
    refine ⟨le_refl _, le_refl _, le_refl _, .inl rfl, fun k session ht => ⟨session, ?_, rfl, id⟩⟩
    have lt := (List.getElem?_eq_some_iff.mp ht).1
    simp only [act, getElem?_append_left lt, ht]
  | bind => exact evolves_modifySession (fun _ => rfl) (fun _ h => h)
  | close => exact evolves_modifySession (fun _ => rfl) (fun _ _ => rfl)
  | stageMaps config env => exact prepare_evolves (stageMaps_step lib config env m)
  | stageRuntime => exact prepare_evolves (runtimes_step m)
  | stagePolicy now stage spec => exact prepare_evolves (stagePolicy_step lib now (m, stage) spec)
  | publish r =>
    exact ⟨le_refl _, le_refl _, le_refl _, .inr (hn r rfl), fun _ session ht => ⟨session, ht, rfl, id⟩⟩
  | _ => exact evolves_rest rfl le_rfl le_rfl rfl rfl

end Evolves

end Manager

def Action.Fits (lib : Stdlib) (m : Manager) : Action → Prop
  | .enroll flow b => m.Binds lib flow b
  | .bind k b => ∀ session, m.sessions[k]? = some session → ∀ b' ∈ b, m.Binds lib session.flow b'
  | .publishMaps stage => stage.states.Pointers m.freshState ∧ (m.tableWith stage.reports).WellFormed
  | .publish r => m.runtime.ref < r.ref ∧ r.ref < m.freshRuntime ∧ (∀ p ∈ r.policies, p.state < m.freshState) ∧
    (r.policies.map RuntimePolicy.state).Nodup ∧ (r.config = none → r.policies = [])
  | _ => True

theorem Action.Quiet.fits {a : Action} (quiet : a.Quiet) (lib : Stdlib) (m : Manager) : a.Fits lib m := by
  cases a <;> trivial

theorem Action.Fits.newer {lib : Stdlib} {m : Manager} {a : Action} (hf : a.Fits lib m) :
    ∀ r, a = .publish r → m.runtime.ref < r.ref := by
  rintro r rfl
  exact hf.1

namespace Manager

variable {lib : Stdlib} {m m' : Manager} {a : Action}

theorem act_runtime (ho : ∀ r, a ≠ .publish r) : (m.act lib a).runtime = m.runtime := by
  cases a with
  | stageMaps config env =>
    have hs := stageMaps_step lib config env m
    rw [act, hs.rest]
  | stagePolicy now stage spec =>
    have hs := stagePolicy_step lib now (m, stage) spec
    rw [act, hs.rest]
  | publish r => exact absurd rfl (ho r)
  | _ => rfl

theorem act_session {k : Nat} {session : Session} (bind : ∀ b, a ≠ .bind k b) (close : a ≠ .close k)
    (ht : m.sessions[k]? = some session) : (m.act lib a).sessions[k]? = some session := by
  cases a with
  | enroll =>
    have lt := (List.getElem?_eq_some_iff.mp ht).1
    simp only [act, getElem?_append_left lt, ht]
  | bind s b =>
    have ne : s ≠ k := fun eq => bind b (by rw [eq])
    simp [act, modifySession, ne, ht]
  | close s =>
    have ne : s ≠ k := fun eq => close (by rw [eq])
    simp [act, modifySession, ne, ht]
  | stageMaps config env =>
    have hs := stageMaps_step lib config env m
    rw [act, hs.rest]
    exact ht
  | stagePolicy now stage spec =>
    have hs := stagePolicy_step lib now (m, stage) spec
    rw [act, hs.rest]
    exact ht
  | _ => exact ht

theorem fits_evolves (hf : a.Fits lib m) : Evolves m (m.act lib a) := act_evolves lib m hf.newer

theorem Sound.evolves (hso : m.Sound lib) (e : Evolves m m') (hr : m'.runtime = m.runtime)
    (hst : m'.states.Pointers m'.freshState) (ht : m'.table.WellFormed)
    (hs : ∀ session ∈ m'.sessions, ∀ b ∈ session.binding, m'.Binds lib session.flow b) : m'.Sound lib :=
  ⟨hr ▸ hso.runtime.evolves e, hr ▸ lt_of_lt_of_le hso.fresh e.runtimes, hst, ht, hs⟩

theorem mem_modify {sessions : List Session} {k : Nat} {f : Session → Session} {session' : Session}
    (h : session' ∈ sessions.modify k f) :
    session' ∈ sessions ∨ ∃ session, sessions[k]? = some session ∧ session' = f session := by
  obtain ⟨j, ht⟩ := mem_iff_getElem?.mp h
  rw [getElem?_modify] at ht
  obtain ⟨session, hh, eq⟩ := Option.map_eq_some_iff.mp ht
  split at eq
  next hs => exact .inr ⟨session, hs ▸ hh, eq.symm⟩
  · exact .inl (eq ▸ mem_of_getElem? hh)

theorem sound_act (hso : m.Sound lib) (fits : a.Fits lib m) : (m.act lib a).Sound lib := by
  have e := fits_evolves fits
  have old : ∀ session ∈ m.sessions, ∀ b ∈ session.binding, (m.act lib a).Binds lib session.flow b :=
    fun session hs b hb => (hso.sessions session hs b hb).evolves e
  have hst := hso.states.mono e.states
  have hta := GoMap.Pointers.mono hso.table e.series
  have hp : PrepareStep m (m.act lib a) → (m.act lib a).Sound lib := by
    intro step
    refine hso.evolves e (by rw [step.rest]) ?_ ?_ ?_
    · rw [show (m.act lib a).states = m.states by rw [step.rest]]
      exact hst
    · unfold ReportTable.WellFormed
      rw [step.reports]
      exact hta
    · rw [show (m.act lib a).sessions = m.sessions by rw [step.rest]]
      exact old
  cases a with
  | acquire => exact hso.evolves e rfl hst (ReportTable.reportSeries_wellFormed hso.table rfl) old
  | enroll =>
    refine hso.evolves e rfl hst hta fun session hs b' hb => ?_
    rcases mem_append.mp hs with ht | new
    · exact old session ht b' hb
    · rw [mem_singleton.mp new] at hb ⊢
      cases hb
      exact Binds.evolves fits e
  | bind =>
    refine hso.evolves e rfl hst hta fun session' hs b' hb => ?_
    rcases mem_modify hs with ht | ⟨session, hh, rfl⟩
    · exact old session' ht b' hb
    · exact (fits session hh b' hb).evolves e
  | close =>
    refine hso.evolves e rfl hst hta fun session' hs b' hb => ?_
    rcases mem_modify hs with ht | ⟨session, hh, rfl⟩
    · exact old session' ht b' hb
    · exact old session (mem_of_getElem? hh) b' hb
  | stageMaps config env => exact hp (stageMaps_step lib config env m)
  | stageRuntime => exact hp (runtimes_step m)
  | stagePolicy now stage spec => exact hp (stagePolicy_step lib now (m, stage) spec)
  | publishMaps => exact hso.evolves e rfl fits.1 fits.2 old
  | publish =>
    obtain ⟨_, hf, hbe, hd, off⟩ := fits
    exact ⟨⟨le_refl _, fun _ => rfl, hbe, hd, off⟩, hf, hst, hta, old⟩
  | dropState =>
    refine hso.evolves e rfl (hst.sub (fun id' ref ht => ?_) le_rfl) hta old
    simp only [act, GoMap.lookup_erase_eq] at ht
    split at ht
    · cases ht
    · exact ht
  | rollup =>
    refine hso.evolves e rfl hst (hso.table.sub (fun key' ref' ht => ?_) le_rfl) old
    simp only [act, ReportTable.rollupEntry] at ht
    split at ht
    · rw [GoMap.lookup_erase_eq] at ht
      split at ht
      · cases ht
      · exact ht
    · exact ht
  | dropOldest => exact hso.evolves e rfl hst ((m.table.dropOldest_trimmed).wellFormed hso.table) old
  | _ => exact hso.evolves e rfl hst hta old

end Manager

end AsterCore
