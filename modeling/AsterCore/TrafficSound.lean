import AsterCore.TrafficKnown

namespace AsterCore

open Lock

/-- The points of `currentBinding` at which nobody else may change the session. -/
def CurrentBindingPc.watches : CurrentBindingPc → Bool
  | .runtimeLocked | .compareLocked _ | .bindSession _ _ | .store _ _ => true
  | _ => false

def RecordPc.watches : RecordPc → Bool
  | .currentBinding pc => pc.watches
  | _ => false

def WaitPc.watches : WaitPc → Bool
  | .currentBinding pc => pc.watches
  | _ => false

/-- What a call knows at each of its points. -/
def CurrentBindingPc.Good (lib : Stdlib) (m : Manager) (session : Session) : CurrentBindingPc → Prop
  | .compare r => m.Knows r
  | .runtimeLocked => session.closed = false
  | .compareLocked r => m.Knows r ∧ session.closed = false
  | .bindSession previous scan =>
    m.Scans lib session.flow scan ∧ session.binding = previous ∧ session.closed = false
  | .store previous next => m.Binds lib session.flow next ∧ session.binding = previous ∧ session.closed = false
  | .release todo next => m.Binds lib session.flow next ∧ ∀ p ∈ todo, p.state < m.freshState
  | .report next _ => m.Binds lib session.flow next
  | _ => True

def RecordPc.Good (lib : Stdlib) (m : Manager) (session : Session) (bytes : Int64) : RecordPc → Prop
  | .currentBinding pc => pc.Good lib m session
  | .gate b | .gateClosed b | .gateRuntime b | .returned (some b) => m.Binds lib session.flow b
  | .clock b | .report b _ _ _ | .dirty b _ _ | .exceeded b _ => m.Binds lib session.flow b ∧ b.runtime = m.runtime
  | .count b _ _ counted todo => m.Binds lib session.flow b ∧ b.runtime = m.runtime ∧ counted ++ todo = b.policies
  | .returned none => bytes ≤ 0 ∨ session.closed = true
  | _ => True

def WaitPc.Good (lib : Stdlib) (m : Manager) (session : Session) : WaitPc → Prop
  | .currentBinding pc => pc.Good lib m session
  | _ => True

def ClosePc.Good (m : Manager) (session : Session) : ClosePc → Prop
  | .swap => session.closed = true
  | .release todo => session.closed = true ∧ ∀ p ∈ todo, p.state < m.freshState
  | _ => True

def OpenPc.Good (lib : Stdlib) (m : Manager) (flow : Flow) : OpenPc → Prop
  | .bindSession scan => m.Scans lib flow scan
  | .report b _ | .enroll b => m.Binds lib flow b
  | _ => True

/-- The stage during the loop over the policies. -/
structure Manager.Fills (m : Manager) (stage : Stage) (todo : List Policy) : Prop where
  stages : m.Stages stage
  on : stage.runtime.config ≠ none
  registered : ∀ p ∈ stage.runtime.policies, stage.states.lookup p.spec.id = some p.state
  ids : ((stage.runtime.policies.map RuntimePolicy.spec ++ todo).map Policy.id).Nodup

def ConfigurePc.Good (m : Manager) : ConfigurePc → Prop
  | .openStage _ maps => maps.states.Pointers m.freshState ∧ (m.tableWith maps.reports).WellFormed
  | .fillStage _ _ stage todo => m.Fills stage todo
  | .cleanStage _ _ stage | .oldRuntime stage => m.Stages stage
  | .gate stage old | .mu stage old | .flushLocked stage old _ | .publishMaps stage old | .clock stage old
  | .touch stage old _ _ | .publish stage old => m.Stages stage ∧ old = m.runtime
  | _ => True

def Call.Good (lib : Stdlib) (m : Manager) : Call → Prop
  | .opening flow pc => pc.Good lib m flow
  | .recording k _ bytes pc => ∃ session, m.sessions[k]? = some session ∧ pc.Good lib m session bytes
  | .waiting k _ pc => ∃ session, m.sessions[k]? = some session ∧ pc.Good lib m session
  | .closing k pc => ∃ session, m.sessions[k]? = some session ∧ pc.Good m session
  | .configuring _ _ pc => pc.Good m
  | .flushing _ _ => True

section Stable

variable {lib : Stdlib} {m m' : Manager} {session session' : Session}

theorem CurrentBindingPc.Good.stable {pc : CurrentBindingPc} (hg : pc.Good lib m session) (e : m.Evolves m')
    (hf : session'.flow = session.flow) (hw : pc.watches = true → session' = session) : pc.Good lib m' session' := by
  cases pc with
  | compare => exact Manager.Knows.evolves hg e
  | runtimeLocked => exact hw rfl ▸ hg
  | compareLocked r | bindSession previous scan | store previous next => exact hw rfl ▸ ⟨hg.1.evolves e, hg.2⟩
  | release =>
    exact ⟨hf ▸ hg.1.evolves e, fun p hp => lt_of_lt_of_le (hg.2 p hp) e.states⟩
  | report next =>
    have hb := Manager.Binds.evolves hg e
    rw [← hf] at hb
    exact hb
  | _ => trivial

theorem CurrentBindingPc.watches_held {pc : CurrentBindingPc} (k : Nat) (h : pc.watches = true) :
    bindMu k ∈ pc.held k := by
  cases pc <;> simp_all [watches, held]

theorem RecordPc.Good.stable {k : Nat} {bytes : Int64} {pc : RecordPc} (hg : pc.Good lib m session bytes)
    (e : m.Evolves m') (hf : session'.flow = session.flow) (hcl : session.closed = true → session'.closed = true)
    (hw : pc.watches = true → session' = session)
    (gate : recordGateRead m.runtime.ref ∈ pc.held k → m'.runtime = m.runtime) : pc.Good lib m' session' bytes := by
  have hb : ∀ {b : SessionBinding}, m.Binds lib session.flow b → m'.Binds lib session'.flow b :=
    fun h => hf ▸ h.evolves e
  have hp : ∀ {b : SessionBinding}, pc.held k = [.recordGateRead b.runtime.ref] → b.runtime = m.runtime →
      b.runtime = m'.runtime := by
    intro b hh hc
    rw [gate (by rw [hh, hc]; exact List.mem_singleton.mpr rfl), hc]
  cases pc with
  | currentBinding => exact CurrentBindingPc.Good.stable hg e hf hw
  | gate b | gateClosed b | gateRuntime b => exact hb hg
  | clock => exact ⟨hb hg.1, hp rfl hg.2⟩
  | count => exact ⟨hb hg.1, hp rfl hg.2.1, hg.2.2⟩
  | report b now crossed pc | dirty b now crossed | exceeded b pc => exact ⟨hb hg.1, hp rfl hg.2⟩
  | returned b =>
    cases b with
    | none => exact hg.imp_right hcl
    | some => exact hb hg
  | start => trivial

theorem RecordPc.watches_held {pc : RecordPc} (k : Nat) (h : pc.watches = true) : bindMu k ∈ pc.held k := by
  cases pc with
  | currentBinding pc => exact pc.watches_held k h
  | _ => cases h

theorem WaitPc.watches_held {pc : WaitPc} (k : Nat) (h : pc.watches = true) : bindMu k ∈ pc.held k := by
  cases pc with
  | currentBinding pc => exact pc.watches_held k h
  | _ => cases h

theorem WaitPc.Good.stable {pc : WaitPc} (hg : pc.Good lib m session) (e : m.Evolves m')
    (hf : session'.flow = session.flow) (hw : pc.watches = true → session' = session) : pc.Good lib m' session' := by
  cases pc with
  | currentBinding => exact CurrentBindingPc.Good.stable hg e hf hw
  | _ => trivial

theorem ConfigurePc.Good.stable {pc : ConfigurePc} (hg : pc.Good m) (e : m.Evolves m')
    (hs : configureMu ∈ pc.held → m'.runtime = m.runtime) : pc.Good m' := by
  cases pc with
  | openStage => exact ⟨hg.1.mono e.states, GoMap.Pointers.mono hg.2 e.series⟩
  | fillStage =>
    exact ⟨hg.stages.evolves e (hs (by simp [held])), hg.on, hg.registered, hg.ids⟩
  | cleanStage config now stage | oldRuntime stage => exact Manager.Stages.evolves hg e (hs (by simp [held]))
  | lock | start | stageMaps config | dirty stage old | returned result => trivial
  | _ =>
    have hs := hs (by simp [held])
    exact ⟨hg.1.evolves e hs, hg.2.trans hs.symm⟩

/-- A call keeps its knowledge while others run: what the locks it holds protect does not change. -/
theorem Call.Good.stable {t : Call} (hg : t.Good lib m) (e : m.Evolves m')
    (hpu : m'.runtime = m.runtime ∨ recordGateRead m.runtime.ref ∉ t.held ∧ configureMu ∉ t.held)
    (hb : ∀ (k : Nat) session, m.sessions[k]? = some session →
      m'.sessions[k]? = some session ∨ bindMu k ∉ t.held) : t.Good lib m' := by
  have hw : ∀ {k : Nat} {session session' : Session}, m.sessions[k]? = some session →
      m'.sessions[k]? = some session' → bindMu k ∈ t.held → session' = session := by
    intro k session _ ht ht' hh
    rcases hb k session ht with hs | hf
    · rw [hs] at ht'
      exact (Option.some.inj ht').symm
    · exact absurd hh hf
  cases t with
  | opening _ pc =>
    cases pc with
    | bindSession => exact Manager.Scans.evolves hg e
    | report b pc | enroll b => exact Manager.Binds.evolves hg e
    | _ => trivial
  | recording k _ _ pc =>
    obtain ⟨session, ht, hg⟩ := hg
    obtain ⟨session', ht', flow, hc⟩ := e.sessions k session ht
    refine ⟨session', ht', hg.stable (k := k) e flow hc
      (fun h => hw ht ht' (pc.watches_held k h)) fun hh => ?_⟩
    exact hpu.resolve_right fun hf => hf.1 hh
  | waiting k _ pc =>
    obtain ⟨session, ht, hg⟩ := hg
    obtain ⟨session', ht', flow, _⟩ := e.sessions k session ht
    exact ⟨session', ht', hg.stable e flow (fun h => hw ht ht' (pc.watches_held k h))⟩
  | closing k pc =>
    obtain ⟨session, ht, hg⟩ := hg
    obtain ⟨session', ht', _, hc⟩ := e.sessions k session ht
    refine ⟨session', ht', ?_⟩
    cases pc with
    | swap => exact hc hg
    | release => exact ⟨hc hg.1, fun p hp => lt_of_lt_of_le (hg.2 p hp) e.states⟩
    | _ => trivial
  | configuring =>
    exact ConfigurePc.Good.stable hg e fun hh => hpu.resolve_right fun hf => hf.2 hh
  | flushing => trivial

end Stable

end AsterCore
