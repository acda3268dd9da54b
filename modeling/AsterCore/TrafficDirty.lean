import AsterCore.TrafficRolling
import AsterCore.TrafficRegistered

namespace AsterCore

open List Option RuntimePolicy ReportTable

def RuntimePolicy.Settled (p : RuntimePolicy) (now : Nat) (state : PolicyState) : Prop :=
  if p.bucketWidthSecs ≤ 0 then state.overQuota = false
  else (∀ e ∈ state.buckets.entries, unixBefore now p.spec.quota.window < e.1 + p.bucketWidthSecs) ∧
    state.overQuota = quotaExceeded p.spec.quota state.rolling

theorem RuntimePolicy.settled_usage {p : RuntimePolicy} {now : Nat} {s t : PolicyState} (same : s.usage = t.usage)
    (hs : p.Settled now s) : p.Settled now t := by
  unfold Settled at hs ⊢
  rw [← usage_buckets same, ← usage_overQuota same, ← usage_rolling same]
  exact hs

theorem RuntimePolicy.refreshQuota_settled {p : RuntimePolicy} {now : Nat} {s : PolicyState}
    (hs : p.Settled now s) : (p.refreshQuota now s).usage = s.usage := by
  unfold Settled at hs
  unfold refreshQuota
  split
  next hn =>
    rw [if_pos hn] at hs
    simp only [PolicyState.usage, hs]
  next hw =>
    rw [if_neg hw] at hs
    have hp : (p.pruneBucketsLocked s (unixBefore now p.spec.quota.window)).usage = s.usage := by
      apply pruneBucketsLocked_of_live
      intro k c ht
      exact hs.1 ⟨k, c⟩ (GoMap.mem_entries_iff.mpr ht)
    have hve : quotaExceeded p.spec.quota (p.pruneBucketsLocked s (unixBefore now p.spec.quota.window)).rolling =
        s.overQuota := by
      rw [usage_rolling hp, hs.2]
    have hv := usage_overQuota hp
    simp only [hve, ← hv]
    exact hp

theorem persist_usage {s t : PolicyState} (hs : s.usage = t.usage) : s.persist = t.persist := by
  change s.usage.persist = t.usage.persist
  rw [hs]

namespace Manager

structure Unchanged (m m' : Manager) : Prop where
  heap : ∀ ref, (m.heap ref).usage = (m'.heap ref).usage
  rest : m' = { m with heap := m'.heap, sessions := m'.sessions }

theorem Unchanged.refl (m : Manager) : Unchanged m m := ⟨fun _ => rfl, rfl⟩

variable {m m' : Manager} {now : Nat} {lib : Stdlib}

theorem Unchanged.trans {m'' : Manager} (h : Unchanged m m') (h' : Unchanged m' m'') : Unchanged m m'' := by
  refine ⟨fun ref => (h.heap ref).trans (h'.heap ref), ?_⟩
  rw [h'.rest, h.rest]

theorem Unchanged.saved (h : Unchanged m m') (hsa : m.Saved) : m'.Saved := by
  intro store ht
  have rest := h.rest
  have hs : m'.store = m.store := by rw [rest]
  have hst : m'.states = m.states := by rw [rest]
  have hta : m'.table = m.table := by rw [rest]
  rw [hs] at ht
  obtain ⟨hp, hr⟩ := hsa store ht
  unfold persistedPolicy at hp ⊢
  refine ⟨fun id => ?_, fun key => ?_⟩
  · rw [hp, hst]
    cases m.states.lookup id with
    | none => rfl
    | some ref => exact congrArg some (persist_usage (h.heap ref))
  · rw [hr, persistedReport, persistedReport, hta]

theorem unchanged_modify {ref : Nat} {f : PolicyState → PolicyState}
    (hs : (m.heap ref).usage = (f (m.heap ref)).usage) : Unchanged m (m.modifyState ref f) := by
  refine ⟨fun other => ?_, rfl⟩
  by_cases eq : other = ref
  · subst eq
    simpa [modifyState] using hs
  · simp [modifyState, eq]

theorem unchanged_refresh (h : Unchanged m m') {p : RuntimePolicy}
    (hs : p.Settled now (m.heap p.state)) : Unchanged m (m'.refreshQuota now p) :=
  h.trans (unchanged_modify
    (refreshQuota_settled (settled_usage (h.heap p.state) hs)).symm)

theorem unchanged_active (delta : Int) (m : Manager) (p : RuntimePolicy) : Unchanged m (m.addActive delta p) :=
  unchanged_modify rfl

theorem unchanged_release (m : Manager) (binding : Option SessionBinding) : Unchanged m (m.releaseSessionBinding binding) := by
  cases binding with
  | none => exact Unchanged.refl m
  | some binding =>
    refine foldlRecOn (motive := Unchanged m) binding.policies _ (Unchanged.refl m) ?_
    intro m' h p _
    exact h.trans (unchanged_active (-1) m' p)

theorem unchanged_bind {runtime : RuntimeState} {flow : Flow}
    (hs : ∀ p ∈ runtime.matched lib flow, p.Settled now (m.heap p.state)) :
    Unchanged m (m.bindSession lib runtime flow now).1 := by
  refine foldlRecOn (motive := Unchanged m) (runtime.matched lib flow) _ (Unchanged.refl m) ?_
  intro _ h p hp
  exact (unchanged_refresh h (hs p hp)).trans (unchanged_active 1 _ p)

def Unreported (keys : List String) (m : Manager) : Prop :=
  m.runtime.reportsEnabled = false ∨
    ∀ key ∈ keys, m.table.reports.lookup key = none ∧ maxReportSeries ≤ m.table.reports.entries.length

theorem unreported_table {keys : List String} (none : m.Unreported keys) (increment : ReportIncrement) (now : Nat) :
    m.table.recordReport m.reportsConfig increment keys now = m.table := by
  unfold recordReport reportsConfig
  unfold Unreported RuntimeState.reportsEnabled at none
  cases config : m.runtime.config with
  | none => rfl
  | some config =>
    simp only [config, map_some] at none ⊢
    rcases none with off | hf
    · simp [off]
    · split
      · refine foldlRecOn (motive := (· = m.table)) keys _ rfl ?_
        rintro _ rfl key hk
        obtain ⟨ha, hr⟩ := hf key hk
        simp [recordKey, reportSeries, ha, hr]
      · rfl

theorem unchanged_connections {keys : List String} (h : Unchanged m m') (hn : m.Unreported keys)
    (now : Nat) : Unchanged m (m'.recordReportConnections keys 1 now) := by
  have hu : m'.Unreported keys := by
    rw [h.rest]
    exact hn
  unfold recordReportConnections ReportTable.recordReportConnections
  rw [unreported_table hu]
  exact h

def QuietBind (lib : Stdlib) (flow : Flow) (now : Nat) (m : Manager) : Prop :=
  (∀ p ∈ m.runtime.matched lib flow, p.Settled now (m.heap p.state)) ∧
    m.Unreported (newBinding m.runtime (m.runtime.matched lib flow)).reportKeys

/-- The calls that change stored data without raising the flag, when they do not. -/
def QuietBy (lib : Stdlib) (m : Manager) : ManagerOp → Prop
  | .openSession flow now => m.QuietBind lib flow now
  | .wait s served now =>
    ∀ session ∈ m.sessions[s]?, session.closed = false →
      if session.binding.any (fun binding => binding.runtime.ref == m.runtime.ref) then
        ∀ binding ∈ session.binding, ∀ p ∈ binding.policies.take served,
          (m.heap p.state).overQuota = true → p.Settled now (m.heap p.state)
      else m.QuietBind lib session.flow now
  | .status now => ∀ p ∈ m.runtime.policies, p.Settled now (m.heap p.state)
  | _ => True

theorem unchanged_open {flow : Flow} (hq : m.QuietBind lib flow now) : Unchanged m (m.openSession lib flow now).1 := by
  have hb := unchanged_bind hq.1
  unfold openSession
  simp only
  split
  · exact hb
  · have ho : Unchanged m { (m.bindSession lib m.runtime flow now).1 with
        sessions := (m.bindSession lib m.runtime flow now).1.sessions ++
          [Session.mk flow (some (m.bindSession lib m.runtime flow now).2) false] } :=
      hb.trans ⟨fun _ => rfl, rfl⟩
    exact unchanged_connections ho hq.2 now

theorem unchanged_currentBinding {s served : Nat} {binding : Option SessionBinding} (hq : m.QuietBy lib (.wait s served now))
    (h : m.currentBinding lib s now = (m', binding)) :
    Unchanged m m' ∧ ∀ b ∈ binding, ∀ p ∈ b.policies.take served,
      (m.heap p.state).overQuota = true → p.Settled now (m.heap p.state) := by
  unfold currentBinding at h
  split at h
  · cases h
    exact ⟨Unchanged.refl m, by simp⟩
  next session ht =>
    have hq := hq session ht
    split at h
    · cases h
      exact ⟨Unchanged.refl m, by simp⟩
    next ho =>
      have hq := hq (by simpa using ho)
      split at h
      next hc =>
        rw [if_pos hc] at hq
        cases h
        exact ⟨Unchanged.refl m, hq⟩
      next hst =>
        rw [if_neg hst] at hq
        have hs : Unchanged m ((m.bindSession lib m.runtime session.flow now).1.setSession s
            { session with binding := some (m.bindSession lib m.runtime session.flow now).2 }) :=
          (unchanged_bind hq.1).trans ⟨fun _ => rfl, rfl⟩
        have hr := hs.trans (unchanged_release _ session.binding)
        cases h
        refine ⟨unchanged_connections hr hq.2 now, fun b hb p hp _ => hq.1 p ?_⟩
        cases hb
        have mem := mem_of_mem_take hp
        simpa using mem

theorem unchanged_wait {s served : Nat} (hq : m.QuietBy lib (.wait s served now)) : Unchanged m (m.wait lib s served now) := by
  unfold wait
  split
  next eq => exact (unchanged_currentBinding hq eq).1
  next binding eq =>
    obtain ⟨hb, hs⟩ := unchanged_currentBinding hq eq
    refine foldlRecOn (motive := Unchanged m) (binding.policies.take served) _ hb ?_
    intro _ h p hp
    split
    next he =>
      rw [← usage_overQuota (h.heap p.state)] at he
      exact unchanged_refresh h (hs binding rfl p hp he)
    · exact h

theorem unchanged_status (hs : ∀ p ∈ m.runtime.policies, p.Settled now (m.heap p.state)) : Unchanged m (m.status now) := by
  refine foldlRecOn (motive := Unchanged m) m.runtime.policies _ (Unchanged.refl m) ?_
  intro _ h p hp
  exact unchanged_refresh h (hs p hp)

theorem unchanged_closeSession (s : Nat) (m : Manager) : Unchanged m (m.closeSession s) := by
  unfold closeSession
  split
  · exact Unchanged.refl m
  next session _ =>
    split
    · exact Unchanged.refl m
    · have hm : Unchanged m (m.setSession s { session with binding := none, closed := true }) :=
        ⟨fun _ => rfl, rfl⟩
      exact hm.trans (unchanged_release _ session.binding)

structure CleanInv (m : Manager) : Prop where
  allocated : m.Allocated
  clean : m.dirty = false → m.Saved

section

variable (inv : CleanInv m)

include inv

theorem cleanInv_session (hs : SessionStep (fun _ _ => True) m m')
    (hu : m.dirty = false → m.store.isSome → Unchanged m m') : CleanInv m' := by
  refine ⟨allocated_session inv.allocated hs, ?_⟩
  intro hc store ht
  rw [hs.dirty] at hc
  have ho : m.store.isSome := by
    rw [← hs.store, ht]
    rfl
  exact (hu hc ho).saved (inv.clean hc) store ht

theorem cleanInv_flagged (heap : Nat → PolicyState) : CleanInv { m with heap := heap, dirty := true } :=
  ⟨⟨inv.allocated.runtime, inv.allocated.states, inv.allocated.table⟩, fun hc => by cases hc⟩

theorem cleanInv_record (lib : Stdlib) (s : Nat) (direction : Direction)
    (bytes : Int64) (now : Nat) : CleanInv (m.record lib s direction bytes now) := by
  rcases record_cases lib s direction bytes now m with hq | ⟨hf, hs⟩
  · rw [hq]
    exact inv
  · have hc := allocated_session inv.allocated hs
    exact ⟨⟨hc.runtime, hc.states, hc.table⟩, fun hcl => by rw [hf] at hcl; cases hcl⟩

theorem cleanInv_flush (now : Nat) (env : FlushEnv) : CleanInv (m.flushLocked now env).1 := by
  have step := flushLocked_step now env m
  refine ⟨allocated_flush inv.allocated now env, ?_⟩
  intro hc
  cases ho : (m.flushLocked now env).2 with
  | error e =>
    rw [step.failed e ho] at hc
    cases hc
  | ok =>
    rcases step.saved ho with ⟨same, _⟩ | hs
    · rw [same] at hc ⊢
      exact inv.clean hc
    · exact hs

theorem cleanInv_prepare (step : PrepareStep m m') : CleanInv m' := by
  refine ⟨allocated_prepare inv.allocated step, ?_⟩
  intro hc store ht
  have hd : m'.dirty = m.dirty := by rw [step.rest]
  have hst : m'.store = m.store := by rw [step.rest]
  have hs : m'.states = m.states := by rw [step.rest]
  rw [hd] at hc
  rw [hst] at ht
  obtain ⟨hp, hr⟩ := inv.clean hc store ht
  refine ⟨fun id => ?_, fun key => ?_⟩
  · rw [hp]
    unfold persistedPolicy
    rw [hs]
    cases hf : m.states.lookup id with
    | none => rfl
    | some ref =>
      have same := step.heap ref (inv.allocated.states.allocated id ref hf)
      rw [map_some, map_some, same]
      rfl
  · rw [hr]
    unfold persistedReport
    rw [step.reports]
    cases hf : m.table.reports.lookup key with
    | none => rfl
    | some ref => rw [map_some, map_some, step.series ref (inv.allocated.table.allocated key ref hf)]

theorem cleanInv_configure (lib : Stdlib) (config : Option Config)
    (staged committed : Nat) (env : ConfigureEnv) : CleanInv (m.configure lib config staged committed env).1 := by
  obtain ⟨hs, hr⟩ := prepareConfiguration_spec inv.allocated lib config staged env
  have hp := cleanInv_prepare inv hs
  unfold configure
  generalize m.prepareConfiguration lib config staged env = result at hs hr hp ⊢
  obtain ⟨m', outcome⟩ := result
  cases outcome with
  | error => exact hp
  | ok stage =>
    simp only at hr hp ⊢
    have hr := ready_flush (hr stage rfl).1 committed env.flush
    have hf := cleanInv_flush hp committed env.flush
    generalize m'.flushLocked committed env.flush = result at hr hf ⊢
    obtain ⟨_, outcome⟩ := result
    cases outcome with
    | error => exact hf
    | ok =>
      refine ⟨allocated_commit hr committed, ?_⟩
      simp only at hr ⊢
      rw [commitStage_rest]
      intro hc store ht
      -- the flag is clear after a commit only without a configuration, and then there is no store
      have off : stage.config = none := by simpa using hc
      obtain ⟨hfr, hn⟩ := hr.closed off
      simp [stagedStore, hfr, hn] at ht

theorem cleanInv_close (now : Nat) (env : FlushEnv) (closed : Bool) : CleanInv (m.close now env closed).1 := by
  have hf := cleanInv_flush inv now env
  unfold close
  generalize m.flushLocked now env = result at hf ⊢
  obtain ⟨_, outcome⟩ := result
  cases outcome with
  | error => exact hf
  | ok => exact ⟨allocated_empty rfl _ _, nofun⟩

theorem cleanInv_apply {op : ManagerOp}
    (hq : m.dirty = false → m.store.isSome → m.QuietBy lib op) : CleanInv (m.apply lib op) := by
  cases op with
  | configure config staged committed env => exact cleanInv_configure inv lib config staged committed env
  | openSession flow now =>
    exact cleanInv_session inv (openSession_step sessionRel_true lib flow now m)
      (fun hc ho => unchanged_open (hq hc ho))
  | record s direction bytes now => exact cleanInv_record inv lib s direction bytes now
  | wait s served now =>
    exact cleanInv_session inv (wait_step sessionRel_true lib s served now m)
      (fun hc ho => unchanged_wait (hq hc ho))
  | closeSession s =>
    exact cleanInv_session inv (closeSession_step sessionRel_true s m)
      (fun _ _ => unchanged_closeSession s m)
  | status now =>
    exact cleanInv_session inv (status_step sessionRel_true now m)
      (fun hc ho => unchanged_status (hq hc ho))
  | reset _ now env =>
    unfold apply reset
    simp only
    split
    · exact inv
    next p there => exact cleanInv_flush (cleanInv_flagged inv _) now env
  | flush now env => exact cleanInv_flush inv now env
  | close now env closed => exact cleanInv_close inv now env closed

end

def QuietRun (lib : Stdlib) : Manager → List ManagerOp → Prop
  | _, [] => True
  | m, op :: ops => (m.dirty = false → m.store.isSome → m.QuietBy lib op) ∧ QuietRun lib (m.apply lib op) ops

theorem cleanInv_run (inv : CleanInv m) (ops : List ManagerOp) (hq : QuietRun lib m ops) : CleanInv (m.run lib ops) := by
  induction ops generalizing m with
  | nil => exact inv
  | cons _ _ ih => exact ih (cleanInv_apply inv hq.1) hq.2

def retained (now : Nat) (m : Manager) : Manager := if m.dirty then m.rollupAndPruneLocked now else m

theorem flush_holds (inv : CleanInv m) {env : FlushEnv}
    (hd : (m.flushLocked now env).2 = .ok ()) {store : Store} (hth : (m.flushLocked now env).1.store = some store) :
    (∀ id, store.file.policies.lookup id = (m.retained now).persistedPolicy id) ∧
      ∀ key, (env.save = .overLimit → store.file.reports.lookup key ≠ none) →
        store.file.reports.lookup key = (m.retained now).persistedReport key := by
  have step := flushLocked_step now env m
  have ho : m.store.isSome := by
    rw [← step.opened, hth]
    rfl
  unfold retained
  cases flag : m.dirty with
  | false =>
    have hi : m.flushLocked now env = (m, .ok ()) := by simp [flushLocked, flag]
    rw [hi] at hth
    obtain ⟨hp, hr⟩ := inv.clean flag store hth
    exact ⟨hp, fun key _ => hr key⟩
  | true =>
    rw [if_pos rfl]
    obtain ⟨ht, hk⟩ := flushLocked_table now env ho flag
    rcases step.saved hd with ⟨_, none | hc⟩ | hsa
    · simp [none] at ho
    · simp [flag] at hc
    obtain ⟨hp, hr⟩ := hsa store hth
    have hs : (m.flushLocked now env).1.states = (m.rollupAndPruneLocked now).states := by
      rw [step.states, ho, flag, rollupAndPruneLocked_rest]
      rfl
    have hh : (m.flushLocked now env).1.heap = (m.rollupAndPruneLocked now).heap := by
      rw [step.rest, rollupAndPruneLocked_rest]
    refine ⟨fun id => ?_, fun key kept => ?_⟩
    · rw [hp]
      unfold persistedPolicy
      rw [hs, hh]
    · rw [hr] at kept ⊢
      unfold persistedReport at kept ⊢
      by_cases hl : env.save = .overLimit
      · rw [ht.series] at kept ⊢
        cases hf : (m.flushLocked now env).1.table.reports.lookup key with
        | none => exact absurd (by rw [hf]; rfl) (kept hl)
        | some ref => rw [ht.sub key ref hf]
      · rw [hk hl]

/-- In a run whose calls change no stored data behind a clear flag, a close without an error leaves
in the database exactly the policies and reports that were in memory, less what the retention has removed, if they fit the
size limit of the store. Over the limit, whole report series are left out and the others are exact. -/
theorem close_saves_memory (lib : Stdlib) (ops : List ManagerOp) (quiet : QuietRun lib {} ops) (now : Nat)
    (env : FlushEnv) (closed : Bool) (done : (((run lib {} ops).close now env closed).2 = .ok ())) : let m := run lib {} ops
    (m.dirty = false → m.Saved) ∧
      ∀ store, (m.flushLocked now env).1.store = some store →
        (∀ id, store.file.policies.lookup id = (m.retained now).persistedPolicy id) ∧
          ∀ key, (env.save = .overLimit → store.file.reports.lookup key ≠ none) →
            store.file.reports.lookup key = (m.retained now).persistedReport key := by
  intro m
  have inv : CleanInv m := by
    refine cleanInv_run ⟨allocated_start, nofun⟩ ops quiet
  refine ⟨inv.clean, fun store ht => flush_holds inv ?_ ht⟩
  have done := done
  unfold close at done
  split at done
  · cases done
  next eq => rw [eq]

end Manager

instance (p : RuntimePolicy) (now : Nat) (state : PolicyState) : Decidable (p.Settled now state) := by
  unfold RuntimePolicy.Settled
  infer_instance

/-- A connection, a flush, which clears the flag, and a status, which finds nothing to prune. -/
def firstConnection : List ManagerOp :=
  [.configure (some idleConfig) 1785542400000000000 1785542400000000000 {}, .openSession {} 1785542401000000000,
    .flush 1785542401500000000 {}, .status 1785542401600000000]

theorem close_saves_memory_first_connection :
    let m := Manager.run idleStdlib {} firstConnection
    m.dirty = false ∧ m.Saved ∧
      (m.flushLocked 1785542402000000000 {}).1.store.any (fun store => (store.file.reports.lookup "global:global").isSome) = true ∧
      ∀ store ∈ (m.flushLocked 1785542402000000000 {}).1.store,
        (∀ id, store.file.policies.lookup id = (m.retained 1785542402000000000).persistedPolicy id) ∧
          ∀ key, store.file.reports.lookup key = (m.retained 1785542402000000000).persistedReport key := by
  intro m
  have settled : (Manager.run idleStdlib {} (firstConnection.take 3)).QuietBy idleStdlib (.status 1785542401600000000) := by
    show ∀ p ∈ (Manager.run idleStdlib {} (firstConnection.take 3)).runtime.policies, p.Settled _ _
    decide
  have saves := Manager.close_saves_memory idleStdlib firstConnection
    ⟨(fun _ opened => by cases opened), (fun clean => by cases clean), fun _ _ => trivial, fun _ _ => settled, trivial⟩
    1785542402000000000 {} true (by decide)
  have clean : m.dirty = false := by decide
  refine ⟨clean, saves.1 clean, by decide, fun store there => ?_⟩
  obtain ⟨policies, reports⟩ := saves.2 store there
  exact ⟨policies, fun key => reports key nofun⟩

/-- A flush, a connection and the close: the close returns no error, and the database lacks the
connection that the memory has counted. -/
theorem connection_lost_by_close :
    let m := Manager.run idleStdlib {} [.configure (some idleConfig) 1785542400000000000 1785542400000000000 {},
      .flush 1785542400500000000 {}, .openSession {} 1785542401000000000]
    (m.close 1785542402000000000 {} true).2 = .ok () ∧
      (m.persistedReport "global:global").isSome ∧
      (m.flushLocked 1785542402000000000 {}).1.store.all
        (fun store => (store.file.reports.lookup "global:global").isNone) = true := by
  decide

end AsterCore
