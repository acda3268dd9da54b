import AsterCore.TrafficOps

namespace AsterCore

namespace Manager

/-- The policies of the runtime count into the states that are registered under their identifiers. -/
def Registered (m : Manager) : Prop := ∀ p ∈ m.runtime.policies, m.states.lookup p.spec.id = some p.state

/-- No policy of the runtime has been without traffic and connections for longer than the retention. -/
def Alive (now : Nat) (m : Manager) : Prop :=
  ∀ config ∈ m.runtime.config, ∀ p ∈ m.runtime.policies,
    (m.heap p.state).isOrphan (orphanCutoff now config.reports.orphanRetention) = false

/-- The condition on a call under which its cleanups spare the configured policies. -/
def SparedBy (lib : Stdlib) (m : Manager) : ManagerOp → Prop
  | .configure config staged committed env =>
    m.StagingSpares lib config staged env ∧ (m.store.isSome → m.dirty → m.Alive committed)
  | .reset id now _ => m.store.isSome → (∃ p ∈ m.runtime.policies, p.spec.id = id) → m.Alive now
  | .flush now _ => m.store.isSome → m.dirty → m.Alive now
  | .close now _ _ => m.store.isSome → m.dirty → m.Alive now
  | _ => True

def SparedRun (lib : Stdlib) : Manager → List ManagerOp → Prop
  | _, [] => True
  | m, op :: ops => m.SparedBy lib op ∧ SparedRun lib (m.apply lib op) ops

/-- While the flag is clear, the store has the counters of every configured policy. -/
def CountersSaved (m : Manager) : Prop :=
  m.dirty = false → ∀ store, m.store = some store → ∀ p ∈ m.runtime.policies,
    ∃ persisted, store.file.policies.lookup p.spec.id = some persisted ∧
      persisted.counters = (m.heap p.state).counters

structure RegisteredInv (m : Manager) : Prop where
  allocated : m.Allocated
  registered : m.Registered
  counters : m.CountersSaved

theorem sessionRel_counters : SessionRel (fun s s' => s'.counters = s.counters) := by
  refine ⟨fun _ => rfl, fun h h' => h'.trans h, fun p now s => ?_, fun _ _ => rfl⟩
  rw [p.refreshQuota_spec now s]

variable {m : Manager} {now : Nat} {lib : Stdlib}

theorem countersSaved_of_saved (hr : m.Registered) (hs : m.Saved) : m.CountersSaved := by
  intro _ store ht p hp
  refine ⟨(m.heap p.state).persist, ?_, rfl⟩
  rw [(hs store ht).1, persistedPolicy, hr p hp]
  rfl

theorem registeredInv_session {m' : Manager} (inv : RegisteredInv m) (hs : SessionStep (fun _ _ => True) m m')
    (hc : m.dirty = false → ∀ ref, (m'.heap ref).counters = (m.heap ref).counters) : RegisteredInv m' := by
  have hr := hs.runtime
  refine ⟨allocated_session inv.allocated hs, ?_, ?_⟩
  · intro p hp
    rw [hr] at hp
    rw [hs.states]
    exact inv.registered p hp
  · intro hcl store ht p hp
    rw [hr] at hp
    rw [hs.store] at ht
    rw [hs.dirty] at hcl
    obtain ⟨persisted, hf, eq⟩ := inv.counters hcl store ht p hp
    exact ⟨persisted, hf, eq.trans (hc hcl p.state).symm⟩

theorem registeredInv_record (inv : RegisteredInv m) (lib : Stdlib) (s : Nat)
    (direction : Direction) (bytes : Int64) (now : Nat) : RegisteredInv (m.record lib s direction bytes now) := by
  rcases record_cases lib s direction bytes now m with hq | ⟨flag, hs⟩
  · rw [hq]
    exact inv
  · have hf : RegisteredInv { m with dirty := true } :=
      ⟨⟨inv.allocated.runtime, inv.allocated.states, inv.allocated.table⟩, inv.registered,
        fun hc => by cases hc⟩
    refine registeredInv_session hf ⟨fun _ => trivial, hs.table, ?_⟩ (fun hc => by cases hc)
    have hr := hs.rest
    generalize m.record lib s direction bytes now = m' at flag hr ⊢
    obtain ⟨_, _, _, _, _, _, _, _, _, _, _⟩ := m'
    simp only at flag hr ⊢
    rw [flag]
    simp only [Manager.mk.injEq] at hr ⊢
    exact hr

theorem flush_registered (hr : m.Registered) (ha : m.Alive now) :
    ∀ p ∈ m.runtime.policies, (m.cleanedStates now).lookup p.spec.id = some p.state := by
  intro p hp
  unfold cleanedStates
  split
  · exact hr p hp
  next config hh =>
    rw [cleanupOrphans_lookup, hr p hp, Option.filter_some, ha config hh p hp]
    rfl

theorem registeredInv_flush (inv : RegisteredInv m) (env : FlushEnv)
    (hal : m.store.isSome → m.dirty → m.Alive now) : RegisteredInv (m.flushLocked now env).1 := by
  have ha := allocated_flush inv.allocated now env
  have step := flushLocked_step now env m
  generalize m.flushLocked now env = result at ha step ⊢
  obtain ⟨m', outcome⟩ := result
  have hru : m'.runtime = m.runtime := by
    have rest := step.rest
    simp only at rest
    rw [rest]
  have hr : m'.Registered := by
    intro p hp
    rw [hru] at hp
    rw [show m'.states = _ from step.states]
    split
    next hb =>
      simp only [Bool.and_eq_true] at hb
      exact flush_registered inv.registered (hal hb.1 hb.2) p hp
    · exact inv.registered p hp
  refine ⟨ha, hr, ?_⟩
  cases outcome with
  | error e =>
    intro hc
    rw [step.failed e rfl] at hc
    cases hc
  | ok =>
    rcases step.saved rfl with ⟨same, _⟩ | hs
    · rw [show m' = m from same]
      exact inv.counters
    · exact countersSaved_of_saved hr hs

theorem registeredInv_prepare {m' : Manager} (inv : RegisteredInv m) (step : PrepareStep m m') :
    RegisteredInv m' ∧ ∀ now, m.Alive now → m'.Alive now := by
  have hr : m'.runtime = m.runtime := by rw [step.rest]
  have hs : m'.states = m.states := by rw [step.rest]
  have hst : m'.store = m.store := by rw [step.rest]
  have hd : m'.dirty = m.dirty := by rw [step.rest]
  refine ⟨⟨allocated_prepare inv.allocated step, ?_, ?_⟩, ?_⟩
  · intro p hp
    rw [hr] at hp
    rw [hs]
    exact inv.registered p hp
  · intro hc file ht p hp
    rw [hd] at hc
    rw [hst] at ht
    rw [hr] at hp
    obtain ⟨persisted, hf, eq⟩ := inv.counters hc file ht p hp
    have same := step.heap p.state (inv.allocated.runtime p hp)
    exact ⟨persisted, hf, by rw [eq, same]⟩
  · intro _ ha config hh p hp
    rw [hr] at hh hp
    rw [isOrphan_sameButRolling (step.heap p.state (inv.allocated.runtime p hp))]
    exact ha config hh p hp

theorem registeredInv_reset (inv : RegisteredInv m) {id : String} (env : FlushEnv)
    (ha : m.store.isSome → (∃ p ∈ m.runtime.policies, p.spec.id = id) → m.Alive now) :
    RegisteredInv (m.reset id now env).1 := by
  unfold reset
  split
  · exact inv
  next p ht =>
    have hf : ∃ p ∈ m.runtime.policies, p.spec.id = id :=
      ⟨p, List.mem_of_find?_eq_some ht, by simpa using List.find?_some ht⟩
    apply registeredInv_flush
    · exact ⟨⟨inv.allocated.runtime, inv.allocated.states, inv.allocated.table⟩, inv.registered,
        fun hc => by cases hc⟩
    · intro ho _ config hh q hq
      have hb := ha ho hf config hh q hq
      by_cases hs : q.state = p.state
      · rw [hs] at hb ⊢
        simpa [modifyState, PolicyState.reset, PolicyState.isOrphan] using hb
      · simpa [modifyState, hs] using hb

theorem registeredInv_commit {stage : Stage} (hre : stage.Ready m) (hr : stage.Registered)
    (now : Nat) : RegisteredInv (m.commitStage stage now) := by
  have ha := allocated_commit hre now
  rw [commitStage_rest] at ha ⊢
  refine ⟨ha, hr, ?_⟩
  intro hc _ _ p hp
  have hs := hre.specs
  cases h : stage.config with
  | some => simp [h] at hc
  | none =>
    simp only [h, Option.elim_none, List.map_eq_nil_iff] at hs
    simp [hs] at hp

theorem registeredInv_configure (inv : RegisteredInv m) {config : Option Config}
    {staged committed : Nat} {env : ConfigureEnv} (hsp : m.StagingSpares lib config staged env)
    (ha : m.store.isSome → m.dirty → m.Alive committed) : RegisteredInv (m.configure lib config staged committed env).1 := by
  obtain ⟨step, hre⟩ := prepareConfiguration_spec inv.allocated lib config staged env
  obtain ⟨hp, hk⟩ := registeredInv_prepare inv step
  unfold configure
  generalize m.prepareConfiguration lib config staged env = result at step hre hp hk ⊢
  obtain ⟨m', outcome⟩ := result
  cases outcome with
  | error => exact hp
  | ok stage =>
    simp only at step hre hp hk ⊢
    obtain ⟨hre, hr⟩ := hre stage rfl
    have hf : RegisteredInv (m'.flushLocked committed env.flush).1 := by
      apply registeredInv_flush hp
      intro ho hb
      have hst : m'.store = m.store := by rw [step.rest]
      have hd : m'.dirty = m.dirty := by rw [step.rest]
      exact hk committed (ha (by rw [← hst]; exact ho) (by rw [← hd]; exact hb))
    have hs := ready_flush hre committed env.flush
    generalize m'.flushLocked committed env.flush = result at hf hs ⊢
    obtain ⟨_, outcome⟩ := result
    cases outcome with
    | error => exact hf
    | ok => exact registeredInv_commit hs (hr hsp) committed

theorem registeredInv_close (inv : RegisteredInv m) {env : FlushEnv} (closed : Bool)
    (ha : m.store.isSome → m.dirty → m.Alive now) : RegisteredInv (m.close now env closed).1 := by
  have hf := registeredInv_flush inv env ha
  unfold close
  generalize m.flushLocked now env = result at hf ⊢
  obtain ⟨_, outcome⟩ := result
  cases outcome with
  | error => exact hf
  | ok =>
    refine ⟨allocated_empty rfl _ _, ?_, ?_⟩
    · intro p hp
      cases hp
    · intro _ _ ht
      cases ht

theorem registeredInv_apply (inv : RegisteredInv m) {op : ManagerOp}
    (hs : m.SparedBy lib op) : RegisteredInv (m.apply lib op) := by
  have hq : (∃ flow now, op = .openSession flow now) ∨ (∃ s served now, op = .wait s served now) ∨
      (∃ s, op = .closeSession s) ∨ (∃ now, op = .status now) → RegisteredInv (m.apply lib op) :=
    fun hse => registeredInv_session inv (apply_session_step sessionRel_true lib m hse)
      (fun _ => (apply_session_step sessionRel_counters lib m hse).heap)
  cases op with
  | configure => exact registeredInv_configure inv hs.1 hs.2
  | openSession flow now => exact hq (.inl ⟨flow, now, rfl⟩)
  | record s direction bytes now => exact registeredInv_record inv lib s direction bytes now
  | wait s served now => exact hq (.inr (.inl ⟨s, served, now, rfl⟩))
  | closeSession s => exact hq (.inr (.inr (.inl ⟨s, rfl⟩)))
  | status now => exact hq (.inr (.inr (.inr ⟨now, rfl⟩)))
  | reset _ _ env => exact registeredInv_reset inv env hs
  | flush _ env => exact registeredInv_flush inv env hs
  | close _ _ closed => exact registeredInv_close inv closed hs

theorem registeredInv_start : RegisteredInv {} := by
  refine ⟨allocated_start, ?_, ?_⟩
  · intro p hp
    cases hp
  · intro _ _ ht
    cases ht

theorem registeredInv_run (inv : RegisteredInv m) (ops : List ManagerOp)
    (hs : SparedRun lib m ops) : RegisteredInv (m.run lib ops) := by
  induction ops generalizing m with
  | nil => exact inv
  | cons _ _ ih => exact ih (registeredInv_apply inv hs.1) hs.2

theorem sparedRun_append {ops : List ManagerOp} {op : ManagerOp}
    (hs : SparedRun lib m (ops ++ [op])) : SparedRun lib m ops ∧ (m.run lib ops).SparedBy lib op := by
  induction ops generalizing m with
  | nil => exact ⟨trivial, hs.1⟩
  | cons _ _ ih =>
    obtain ⟨hr, hl⟩ := ih hs.2
    exact ⟨⟨hs.1, hr⟩, hl⟩

/-- While no cleanup meets a configured policy that is idle beyond the retention, every policy of
the runtime is registered after every call, a cleanup removes only states of policies that are not
configured, and every flush leaves the counters of every configured policy in the store. -/
theorem configured_policies_registered (lib : Stdlib) (ops : List ManagerOp) (op : ManagerOp)
    (spared : SparedRun lib {} (ops ++ [op])) : let m := run lib {} ops
    let m' := m.apply lib op
    m'.Registered ∧
      (∀ id, m.states.lookup id ≠ none → m'.states.lookup id = none →
        ∀ p ∈ m'.runtime.policies, p.spec.id ≠ id) ∧
      ∀ now env, op = .flush now env → (m.flushLocked now env).2 = .ok () →
        ∀ store, m'.store = some store → ∀ p ∈ m'.runtime.policies,
          ∃ persisted, store.file.policies.lookup p.spec.id = some persisted ∧
            persisted.counters = (m'.heap p.state).counters := by
  intro m m'
  obtain ⟨hb, hl⟩ := sparedRun_append spared
  have hr := registeredInv_run registeredInv_start ops hb
  have inv : RegisteredInv m' := registeredInv_apply hr hl
  refine ⟨inv.registered, ?_, ?_⟩
  · intro _ _ hg p hp eq
    rw [← eq, inv.registered p hp] at hg
    cases hg
  · rintro now env rfl hd store ht p hp
    have hf : m' = (m.flushLocked now env).1 := rfl
    have step := flushLocked_step now env m
    rcases step.saved hd with ⟨hs, idle⟩ | hsa
    · rw [← hf] at hs
      rcases idle with none | hc
      · rw [hs, none] at ht
        cases ht
      · exact inv.counters (by rw [hs]; exact hc) store ht p hp
    · rw [← hf] at hsa
      refine ⟨(m'.heap p.state).persist, ?_, rfl⟩
      rw [(hsa store ht).1, persistedPolicy, inv.registered p hp]
      rfl

end Manager

def idleStdlib : Stdlib :=
  asciiStdlib (fun text => if text = "global\x00\x00\x00\x00\x000s" then
      "2b9d00af09df98abdd292f871211aad480b8db88af3c3189f34028b1e91924cd"
    else "78b0ba37cfaff18568d8be47c1320ed139dc0a27c08c4fcc528e909b5fce7051") (fun _ => "0s")

def idleConfig : Config where
  storePath := "/var/lib/traffic-control.db"
  checkpointInterval := defaultCheckpointInterval
  maxStoreSize := defaultStoreLimit
  reports := ⟨true, defaultHourlyRetention, defaultDailyRetention, defaultMonthlyRetention, defaultOrphanRetention⟩
  policies := [{ id := "global", kind := .global }, { id := "proxy-a", kind := .target, target := ⟨"proxy", "A"⟩ }]
  idsNodup := by decide

theorem configured_policies_registered_first_flush :
    (Manager.run idleStdlib {} ([.configure (some idleConfig) 1785542400000000000 1785542400000000000 {}] ++
      [.flush 1785542460000000000 {}])).Registered := by
  rw [Manager.run_concat]
  refine (Manager.configured_policies_registered idleStdlib
    [.configure (some idleConfig) 1785542400000000000 1785542400000000000 {}] (.flush 1785542460000000000 {})
    ⟨⟨?_, fun h => by cases h⟩, fun _ _ => ?_, trivial⟩).1
  · unfold Manager.StagingSpares Manager.Spares
    decide
  · unfold Manager.Alive
    decide

/-- Ninety-one days without traffic for the proxy A: the next flush drops its state although the
policy is still configured. -/
theorem idle_policy_dropped :
    ¬ (Manager.run idleStdlib {} [.configure (some idleConfig) 1785542400000000000 1785542400000000000 {},
      .openSession {} 1785542400000000000, .record 0 .upload 10 1793404800000000000,
      .flush 1793404800000000000 {}]).Registered := by
  unfold Manager.Registered
  decide

end AsterCore
