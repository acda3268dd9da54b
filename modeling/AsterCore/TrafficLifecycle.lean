import AsterCore.TrafficSums
import AsterCore.TrafficRegistered

namespace AsterCore

open Manager

structure PortalService where
  addr : String
  config : RawPortalConfig
  baseURL : String := ""
  started : Bool := false
  deriving DecidableEq

def trimRightSlash (url : String) : String :=
  String.ofList (url.toList.reverse.dropWhile (· == '/')).reverse

def PortalService.setConfig (config : RawPortalConfig) (service : PortalService) : PortalService :=
  let url := trimRightSlash config.url
  { service with config := config, baseURL := if url = "" then "http://" ++ service.addr else url }

/-- The manager with what `Configure` starts and stops around it: the portal and the flusher, which is known by
its interval. -/
structure Lifecycle where
  manager : Manager := {}
  portal : Option PortalService := none
  flusher : Option Int := none

structure LifecycleEnv extends ConfigureEnv where
  portalAddr : String := ""

inductive LifecycleError
  | revisionConflict
  | failed (e : ManagerError)
  deriving DecidableEq

/-- What a stage does about the portal: `reuse` is `reusePortal`. -/
inductive PortalPlan
  | reuse
  | replace (config : RawPortalConfig)
  deriving DecidableEq

def PortalPlan.outcome (env : LifecycleEnv) : PortalPlan → Except String Unit
  | .reuse => .ok ()
  | .replace config => if trimSpace config.listen = "" then .ok () else env.portal

/-- `preparePortal`, after the listener is open. -/
def preparePortal (config : RawPortalConfig) (env : LifecycleEnv) : Option PortalService :=
  if trimSpace config.listen = "" then none
  else some (PortalService.setConfig config { addr := env.portalAddr, config := config })

namespace Lifecycle

def portalPlan (config : Option Config) (s : Lifecycle) : PortalPlan :=
  match config.filter Config.enabled with
  | none => .replace {}
  | some c =>
    match s.portal with
    | some service => if trimSpace service.config.listen = trimSpace c.portal.listen then .reuse else .replace c.portal
    | none => if trimSpace c.portal.listen = "" then .reuse else .replace c.portal

/-- The portal after a commit. A portal that is kept gets the new configuration, a new one is started. -/
def commitPortal (plan : PortalPlan) (config : Option Config) (env : LifecycleEnv) (s : Lifecycle) : Option PortalService :=
  match plan with
  | .reuse => s.portal.map (fun service => config.elim service (fun c => service.setConfig c.portal))
  | .replace portal => (preparePortal portal env).map (fun service => { service with started := true })

/-- The flusher after `startFlusher` for the runtime that was active before a failed flush. -/
def restartFlusher (old : RuntimeState) : Option Int :=
  let interval := old.config.elim 0 Config.checkpointInterval
  if 0 < interval then some interval else none

/-- `Manager.configure`, with the portal and the flusher. A stage that is given up is disposed of: its own portal
and its own store are closed. -/
def configure (lib : Stdlib) (config : Option Config) (staged committed : Nat) (env : LifecycleEnv) (s : Lifecycle) :
    Lifecycle × Except LifecycleError Unit :=
  let plan := s.portalPlan config
  match s.manager.prepareConfiguration lib config staged { env.toConfigureEnv with portal := plan.outcome env } with
  | (m, .error e) => ({ s with manager := m }, .error (.failed e))
  | (m, .ok stage) =>
    match m.flushLocked committed env.flush with
    | (m', .error e) => ({ s with manager := m', flusher := restartFlusher m.runtime }, .error (.failed e))
    | (m', .ok ()) =>
      ({ manager := m'.commitStage stage committed
         portal := s.commitPortal plan stage.config env
         flusher := stage.config.map Config.checkpointInterval }, .ok ())

def configureAtRevision (lib : Stdlib) (config : Option Config) (expected : UInt64) (staged committed : Nat) (env : LifecycleEnv)
    (s : Lifecycle) : Lifecycle × Except LifecycleError Unit :=
  if s.manager.revision ≠ expected then (s, .error .revisionConflict) else s.configure lib config staged committed env

end Lifecycle

inductive ConfigureCall
  | configure (config : Option Config)
  | configureAtRevision (config : Option Config) (expected : UInt64)

def ConfigureCall.config : ConfigureCall → Option Config
  | .configure config => config
  | .configureAtRevision config _ => config

def Lifecycle.perform (lib : Stdlib) (staged committed : Nat) (env : LifecycleEnv) (s : Lifecycle) :
    ConfigureCall → Lifecycle × Except LifecycleError Unit
  | .configure config => s.configure lib config staged committed env
  | .configureAtRevision config expected => s.configureAtRevision lib config expected staged committed env

namespace Manager

def openStore (m : Manager) : Option (String × Int64) := m.store.map (fun store => (store.path, store.maxSize))

theorem saveStore_openStore (checkpoint : Int) (m : Manager) : (m.saveStore checkpoint).openStore = m.openStore := by
  simp [openStore, saveStore, Function.comp_def]

theorem trimReports_openStore (checkpoint : Int) (env : FlushEnv) (fuel i : Nat) (m : Manager) :
    (m.trimReports checkpoint env fuel i).1.openStore = m.openStore := by
  induction fuel generalizing i m with
  | zero => rfl
  | succ _ ih =>
    have hs : (({ m with table := m.table.dropOldest } : Manager).saveStore checkpoint).openStore = m.openStore :=
      saveStore_openStore checkpoint _
    unfold trimReports
    split
    · rfl
    · simp only
      split
      · rfl
      · exact hs
      · split
        · exact hs
        · split
          · exact hs
          · exact (ih (i + 1) _).trans hs

theorem flushLocked_openStore (now : Nat) (env : FlushEnv) (m : Manager) : (m.flushLocked now env).1.openStore = m.openStore := by
  have hp : (({ m with dirty := false } : Manager).rollupAndPruneLocked now).openStore = m.openStore := by
    rw [rollupAndPruneLocked_rest]
    rfl
  have hs : ((({ m with dirty := false } : Manager).rollupAndPruneLocked now).saveAndTrim (unixOf now) env).1.openStore =
      m.openStore := by
    unfold saveAndTrim
    split
    · exact hp
    · exact (saveStore_openStore _ _).trans hp
    · exact (saveStore_openStore _ _).trans hp
    · exact (trimReports_openStore _ _ _ _ _).trans ((saveStore_openStore _ _).trans hp)
  unfold flushLocked
  split
  · rfl
  · simp only
    split
    next eq =>
      rw [eq] at hs
      exact hs
    next eq =>
      rw [eq] at hs
      exact hs

theorem flushLocked_busy {now : Nat} {env : FlushEnv} {m : Manager} {e : ManagerError}
    (hf : (m.flushLocked now env).2 = .error e) : (m.store.isSome && m.dirty) = true := by
  unfold flushLocked at hf
  split at hf
  · cases hf
  next busy =>
    cases h : m.store <;> simp_all

def NoOrphans (now : Nat) (m : Manager) : Prop :=
  ∀ config ∈ m.runtime.config, ∀ e ∈ m.states.entries,
    (m.heap e.2).isOrphan (orphanCutoff now config.reports.orphanRetention) = false

theorem cleanedStates_eq_iff {now : Nat} {m : Manager} : m.cleanedStates now = m.states ↔ m.NoOrphans now := by
  unfold cleanedStates NoOrphans
  cases m.runtime.config with
  | none => exact ⟨nofun, fun _ => rfl⟩
  | some config =>
    constructor
    · rintro hs _ hh ⟨id, _⟩ ht
      cases hh
      have hk := cleanupOrphans_lookup m.heap config.reports.orphanRetention now m.states id
      simp only at hs
      rw [hs, GoMap.mem_entries_iff.mp ht, Option.filter_some] at hk
      by_contra ho
      simp [ho] at hk
    · intro none
      exact GoMap.deleteWhere_of_none (fun id ref ht => none config rfl ⟨id, ref⟩ (GoMap.mem_entries_iff.mpr ht))

theorem currentBinding_of_runtime {m m' : Manager} (hr : m'.runtime = m.runtime) (hs : m'.sessions = m.sessions)
    (lib : Stdlib) (k now : Nat) : (m'.currentBinding lib k now).2 = (m.currentBinding lib k now).2 := by
  unfold currentBinding
  rw [hs, hr]
  split
  · rfl
  · split
    · rfl
    · split
      · rfl
      · rfl

end Manager

namespace Lifecycle

structure Preserved (lib : Stdlib) (s s' : Lifecycle) : Prop where
  runtime : s'.manager.runtime = s.manager.runtime
  revision : s'.manager.revision = s.manager.revision
  store : s'.manager.openStore = s.manager.openStore
  portal : s'.portal = s.portal
  states : s'.manager.states = s.manager.states
  policies : ∀ p ∈ s.manager.runtime.policies, s'.manager.heap p.state = s.manager.heap p.state
  sessions : s'.manager.sessions = s.manager.sessions
  bindings : ∀ k now, (s'.manager.currentBinding lib k now).2 = (s.manager.currentBinding lib k now).2

def refusesStore (lib : Stdlib) (config : Config) (env : LifecycleEnv) (s : Lifecycle) : Bool :=
  if s.manager.reusesStore lib config then 0 < config.maxStoreSize && config.maxStoreSize < env.size
  else !env.opened.toBool

def refuses (lib : Stdlib) (env : LifecycleEnv) (s : Lifecycle) (call : ConfigureCall) : Bool :=
  (match call with
    | .configure _ => false
    | .configureAtRevision _ expected => s.manager.revision != expected) ||
  (match call.config.filter Config.enabled with
    | none => false
    | some config => s.refusesStore lib config env || !((s.portalPlan call.config).outcome env).toBool)

theorem stageMaps_error_iff (lib : Stdlib) (config : Config) (env : LifecycleEnv) (s : Lifecycle) (portal : Except String Unit) :
    (s.manager.stageMaps lib config { env.toConfigureEnv with portal := portal }).2.toBool = !s.refusesStore lib config env := by
  unfold stageMaps refusesStore
  by_cases hr : s.manager.reusesStore lib config = true
  · rw [if_pos hr, if_pos hr]
    by_cases hl : 0 < config.maxStoreSize ∧ config.maxStoreSize < env.size
    · rw [if_pos hl]
      simp [Except.toBool, hl.1, hl.2]
    · rw [if_neg hl]
      simp only [Except.toBool]
      rw [eq_comm, Bool.not_eq_true', Bool.and_eq_false_iff, decide_eq_false_iff_not, decide_eq_false_iff_not]
      exact not_and_or.mp hl
  · rw [if_neg hr, if_neg hr]
    cases env.opened <;> rfl

theorem prepare_error_iff (lib : Stdlib) (config : Option Config) (staged : Nat) (env : LifecycleEnv) (s : Lifecycle) :
    (s.manager.prepareConfiguration lib config staged
      { env.toConfigureEnv with portal := (s.portalPlan config).outcome env }).2.toBool =
        !s.refuses lib env (.configure config) := by
  unfold prepareConfiguration refuses
  simp only [ConfigureCall.config, Bool.false_or]
  cases config with
  | none => rfl
  | some c =>
    simp only [Option.filter_some]
    cases on : c.enabled with
    | false => rfl
    | true =>
      have hm := stageMaps_error_iff lib c env s ((s.portalPlan (some c)).outcome env)
      simp only [Bool.not_true, Bool.false_eq_true, if_false, if_true]
      generalize s.manager.stageMaps lib c _ = result at hm ⊢
      obtain ⟨m, outcome⟩ := result
      cases outcome with
      | error =>
        simp only [Except.toBool] at hm ⊢
        rw [Bool.not_or, ← hm, Bool.false_and]
      | ok =>
        simp only [Except.toBool] at hm
        rw [Bool.not_or, ← hm]
        generalize (s.portalPlan (some c)).outcome env = portal
        cases portal <;> rfl

theorem preserved_refl (lib : Stdlib) (s : Lifecycle) : Preserved lib s s :=
  ⟨rfl, rfl, rfl, rfl, rfl, fun _ _ => rfl, rfl, fun _ _ => rfl⟩

section Failed

variable {lib : Stdlib} {s : Lifecycle} {config : Option Config}

theorem preserved_prepare (inv : s.manager.SumsInv lib) (hd : s.manager.DistinctWindows lib config) (staged : Nat)
    (env : ConfigureEnv) : Preserved lib s { s with manager := (s.manager.prepareConfiguration lib config staged env).1 } := by
  have step := (prepareConfiguration_spec inv.allocated lib config staged env).1
  have hl := prepare_live inv hd staged env
  generalize (s.manager.prepareConfiguration lib config staged env).1 = m at step hl ⊢
  have hr : m.runtime = s.manager.runtime := by rw [step.rest]
  have hs : m.sessions = s.manager.sessions := by rw [step.rest]
  refine ⟨hr, by rw [step.rest], ?_, rfl, by rw [step.rest], hl, hs,
    currentBinding_of_runtime hr hs lib⟩
  unfold openStore
  rw [step.rest]

theorem preserved_flush_iff (inv : s.manager.SumsInv lib) (hd : s.manager.DistinctWindows lib config) {staged committed : Nat}
    {env : ConfigureEnv} {flush : FlushEnv} {flusher : Option Int} {e : ManagerError}
    (hfa : ((s.manager.prepareConfiguration lib config staged env).1.flushLocked committed flush).2 = .error e) :
    Preserved lib s
        { s with
          manager := ((s.manager.prepareConfiguration lib config staged env).1.flushLocked committed flush).1
          flusher := flusher } ↔
      s.manager.NoOrphans committed := by
  have step := (prepareConfiguration_spec inv.allocated lib config staged env).1
  have hpr := preserved_prepare inv hd staged env
  generalize (s.manager.prepareConfiguration lib config staged env).1 = m at step hpr hfa ⊢
  have busy := flushLocked_busy hfa
  have hf := flushLocked_step committed flush m
  have ho := flushLocked_openStore committed flush m
  generalize m.flushLocked committed flush = result at hf ho ⊢
  have hst : result.1.states = m.cleanedStates committed := by
    rw [hf.states, if_pos busy]
  have hor : m.NoOrphans committed ↔ s.manager.NoOrphans committed := by
    unfold Manager.NoOrphans
    rw [show m.runtime = s.manager.runtime from hpr.runtime, show m.states = s.manager.states from hpr.states]
    have same : ∀ entry ∈ s.manager.states.entries, ∀ cutoff,
        (m.heap entry.2).isOrphan cutoff = (s.manager.heap entry.2).isOrphan cutoff := by
      rintro ⟨id, ref⟩ ht cutoff
      have hb := inv.allocated.states.allocated id ref (GoMap.mem_entries_iff.mp ht)
      exact isOrphan_sameButRolling (step.heap ref hb) cutoff
    constructor
    · intro h c hc entry ht
      rw [← same entry ht]
      exact h c hc entry ht
    · intro h c hc entry ht
      rw [same entry ht]
      exact h c hc entry ht
  rw [← hor, ← cleanedStates_eq_iff, ← hst]
  constructor
  · intro hk
    rw [show result.1.states = s.manager.states from hk.states]
    exact hpr.states.symm
  · intro hk
    have hr : result.1.runtime = s.manager.runtime := by
      rw [hf.rest]
      exact hpr.runtime
    have hs : result.1.sessions = s.manager.sessions := by
      rw [hf.rest]
      exact hpr.sessions
    refine ⟨hr, ?_, ho.trans hpr.store, rfl, hk.trans hpr.states, ?_, hs,
      currentBinding_of_runtime hr hs lib⟩
    · change result.1.revision = _
      rw [hf.rest]
      exact hpr.revision
    · intro p hp
      rw [hf.rest]
      exact hpr.policies p hp

theorem configure_preserved_iff (inv : s.manager.SumsInv lib) (hd : s.manager.DistinctWindows lib config) {staged committed : Nat}
    {env : LifecycleEnv} {e : LifecycleError} (hf : (s.configure lib config staged committed env).2 = .error e) :
    Preserved lib s (s.configure lib config staged committed env).1 ↔
      s.refuses lib env (.configure config) = true ∨ s.manager.NoOrphans committed := by
  have hr := prepare_error_iff lib config staged env s
  have hp := preserved_prepare inv hd staged { env.toConfigureEnv with portal := (s.portalPlan config).outcome env }
  have hfl := fun flusher => @preserved_flush_iff lib s config inv hd staged committed
    { env.toConfigureEnv with portal := (s.portalPlan config).outcome env } env.flush flusher
  unfold configure at hf ⊢
  simp only at hf ⊢
  generalize s.manager.prepareConfiguration lib config staged _ = result at hr hp hfl hf ⊢
  obtain ⟨m, outcome⟩ := result
  cases outcome with
  | error =>
    have yes : s.refuses lib env (.configure config) = true := by
      simpa [Except.toBool] using hr.symm
    exact ⟨fun _ => .inl yes, fun _ => hp⟩
  | ok =>
    have no : s.refuses lib env (.configure config) = false := by
      simpa [Except.toBool] using hr.symm
    simp only at hfl hf ⊢
    rw [no]
    simp only [Bool.false_eq_true, false_or]
    generalize m.flushLocked committed env.flush = result at hfl hf ⊢
    obtain ⟨_, outcome⟩ := result
    cases outcome with
    | ok => cases hf
    | error => exact hfl _ rfl

end Failed

/-- A `Configure` or `ConfigureAtRevision` that returns an error leaves the active runtime, the revision, the
database, the portal, the map of states, the running policies and the sessions exactly as they were, if and only if it
was turned down before its flush or that flush has no state to drop. -/
theorem failed_configure_preserves (lib : Stdlib) (ops : List ManagerOp) (s : Lifecycle)
    (reached : s.manager = Manager.run lib {} ops) (call : ConfigureCall) (staged committed : Nat) (env : LifecycleEnv)
    (distinct : s.manager.DistinctWindows lib call.config) {e : LifecycleError}
    (failed : (s.perform lib staged committed env call).2 = .error e) :
    Preserved lib s (s.perform lib staged committed env call).1 ↔
      s.refuses lib env call = true ∨ s.manager.NoOrphans committed := by
  have inv : s.manager.SumsInv lib := by
    rw [reached]
    exact sumsInv_run sumsInv_start ops
  cases call with
  | configure => exact configure_preserved_iff inv distinct failed
  | configureAtRevision config expected =>
    simp only [perform, configureAtRevision] at failed ⊢
    by_cases hc : s.manager.revision ≠ expected
    · rw [if_pos hc]
      have hr : s.refuses lib env (.configureAtRevision config expected) = true := by
        unfold refuses
        simp [hc]
      exact ⟨fun _ => .inl hr, fun _ => preserved_refl lib s⟩
    · rw [if_neg hc] at failed ⊢
      have hs : s.refuses lib env (.configureAtRevision config expected) = s.refuses lib env (.configure config) := by
        unfold refuses
        rw [not_ne_iff] at hc
        simp [hc, ConfigureCall.config]
      rw [hs]
      exact configure_preserved_iff inv distinct failed

end Lifecycle

/-- Two policies are configured, one session uses the first of them and sends 10 bytes at the given time. -/
def usedOnce (now : Nat) : List ManagerOp :=
  [.configure (some idleConfig) 1785542400000000000 1785542400000000000 {}, .openSession {} 1785542400000000000,
    .record 0 .upload 10 now]

def fullDisk : LifecycleEnv := { flush := { save := .failed } }

theorem failed_configure_preserves_full_disk :
    Lifecycle.Preserved idleStdlib ⟨Manager.run idleStdlib {} (usedOnce 1785542460000000000), none, none⟩
      (Lifecycle.perform idleStdlib 1785542460000000000 1785542460000000000 fullDisk
        ⟨Manager.run idleStdlib {} (usedOnce 1785542460000000000), none, none⟩
        (.configureAtRevision (some idleConfig) 1)).1 := by
  refine (Lifecycle.failed_configure_preserves idleStdlib (usedOnce 1785542460000000000) _ rfl
    (.configureAtRevision (some idleConfig) 1) _ _ fullDisk ?_ (e := .failed .io) ?_).mpr (.inr ?_)
  · unfold Manager.DistinctWindows
    decide
  · decide +kernel
  · unfold Manager.NoOrphans
    decide +kernel

/-- Ninety-one days later the failed call has dropped the state of a policy that is still configured. -/
theorem failed_configure_drops_state :
    let s : Lifecycle := ⟨Manager.run idleStdlib {} (usedOnce 1793404800000000000), none, none⟩
    let after := s.perform idleStdlib 1793404800000000000 1793404800000000000 fullDisk (.configure (some idleConfig))
    after.2 = .error (.failed .io) ∧ (s.manager.states.lookup "proxy-a").isSome ∧
      (after.1.manager.states.lookup "proxy-a").isNone := by
  decide +kernel

end AsterCore
