import AsterCore.TrafficFlush

namespace AsterCore

/-- What the environment answers during one `configure`: the size of the current store, the file
behind a store that is opened, whether the portal starts, and the flush. -/
structure ConfigureEnv where
  size : Int64 := 0
  opened : Except String StoreFile := .ok {}
  portal : Except String Unit := .ok ()
  flush : FlushEnv := {}

/-- The maps a stage starts from: clones of the live ones, or what the store holds. -/
structure StageMaps where
  states : GoMap String Nat
  reports : GoMap String Nat
  store : Option Store
  checkpoint : Int
  reuseStore : Bool

/-- `stagedConfiguration`. With `reuseStore` the store is the live one. -/
structure Stage where
  config : Option Config
  runtime : RuntimeState
  states : GoMap String Nat
  reports : GoMap String Nat
  store : Option Store
  checkpoint : Int
  reuseStore : Bool
  touched : List Nat

/-- The oldest series go until only `limit` are left; ties are broken by the key. -/
def limitReports (limit : Nat) (series : Nat → ReportSeries) (reports : GoMap String Nat) : GoMap String Nat :=
  if reports.entries.length ≤ limit then reports
  else
    let candidates := (reports.entries.map fun e => (e.1, (series e.2).updated)).insertionSort
      (fun a b => if a.2 = b.2 then a.1 ≤ b.1 else a.2 ≤ b.2)
    ((candidates.take (candidates.length - limit)).map Prod.fst).foldl
      (fun reports key => reports.erase key) reports

def limitStagedReports (series : Nat → ReportSeries) (reports : GoMap String Nat) : GoMap String Nat :=
  limitReports maxReportSeries series reports

namespace Manager

def allocState (m : Manager) (state : PolicyState) : Manager × Nat :=
  ({ m with heap := Function.update m.heap m.freshState state, freshState := m.freshState + 1 }, m.freshState)

def allocSeries (m : Manager) (series : ReportSeries) : Manager × Nat :=
  ({ m with table := { m.table with
      series := Function.update m.table.series m.table.fresh series, fresh := m.table.fresh + 1 } }, m.table.fresh)

def loadStates (file : StoreFile) (m : Manager) : Manager × GoMap String Nat :=
  file.policies.foldl (fun (acc : Manager × GoMap String Nat) _ persisted =>
    let (m, ref) := acc.1.allocState persisted.load
    (m, acc.2.insert persisted.id ref)) (m, ∅)

def loadReports (file : StoreFile) (m : Manager) : Manager × GoMap String Nat :=
  file.reports.foldl (fun (acc : Manager × GoMap String Nat) _ persisted =>
    let (m, ref) := acc.1.allocSeries persisted.load
    (m, acc.2.insert persisted.key ref)) (m, ∅)

def reusesStore (lib : Stdlib) (config : Config) (m : Manager) : Bool :=
  m.store.any (fun store => lib.cleanPath store.path == lib.cleanPath config.storePath)

/-- The part of `prepareConfiguration` that finds the maps. -/
def stageMaps (lib : Stdlib) (config : Config) (env : ConfigureEnv) (m : Manager) :
    Manager × Except String StageMaps :=
  if m.reusesStore lib config then
    if 0 < config.maxStoreSize ∧ config.maxStoreSize < env.size then
      (m, .error "open traffic-control store: traffic-control store size limit exceeded")
    else (m, .ok ⟨m.states, m.table.reports, m.store, m.lastCheckpoint, true⟩)
  else
    match env.opened with
    | .error e => (m, .error e)
    | .ok file =>
      let (m, states) := m.loadStates file
      let (m, reports) := m.loadReports file
      (m, .ok ⟨states, reports, some ⟨config.storePath, config.maxStoreSize, file⟩, file.checkpoint, false⟩)

/-- The state of a policy in a round of the loop over `config.Policies`: it is kept while the
identity is. -/
def stageState (lib : Stdlib) (now : Nat) (spec : Policy) (states : GoMap String Nat) (m : Manager) :
    (Manager × Nat) × GoMap String Nat :=
  let identity := policyIdentity lib spec
  match states.lookup spec.id with
  | none =>
    let fresh := m.allocState (newPolicyState spec.id identity 1 (unixOf now))
    (fresh, states.insert spec.id fresh.2)
  | some ref =>
    if (m.heap ref).identity = identity then ((m, ref), states)
    else
      let fresh := m.allocState (newPolicyState spec.id identity ((m.heap ref).generation + 1) (unixOf now))
      (fresh, states.insert spec.id fresh.2)

def stagePolicy (lib : Stdlib) (now : Nat) (acc : Manager × Stage) (spec : Policy) : Manager × Stage :=
  let ((m, ref), states) := acc.1.stageState lib now spec acc.2.states
  (m.modifyState ref (PolicyState.attach spec),
    { acc.2 with
      states := states
      touched := acc.2.touched ++ [ref]
      runtime := { acc.2.runtime with policies := acc.2.runtime.policies ++ [newRuntimePolicy spec ref] } })

def openStage (config : Config) (maps : StageMaps) (m : Manager) : Stage :=
  { config := some config
    runtime := ⟨m.freshRuntime, some config, [], 0⟩
    states := maps.states
    reports := limitStagedReports m.table.series maps.reports
    store := maps.store
    checkpoint := maps.checkpoint
    reuseStore := maps.reuseStore
    touched := [] }

/-- The cleanup at the end of `prepareConfiguration`. -/
def cleanStage (config : Config) (now : Nat) (stage : Stage) (m : Manager) : Stage :=
  { stage with states := cleanupOrphans m.heap config.reports.orphanRetention now stage.states }

/-- The part of `prepareConfiguration` that fills the stage. -/
def fillStage (lib : Stdlib) (config : Config) (now : Nat) (maps : StageMaps) (m : Manager) : Manager × Stage :=
  let filled := config.policies.foldl (stagePolicy lib now)
    ({ m with freshRuntime := m.freshRuntime + 1 }, m.openStage config maps)
  (filled.1, filled.1.cleanStage config now filled.2)

def emptyStage (m : Manager) : Manager × Stage :=
  ({ m with freshRuntime := m.freshRuntime + 1 },
    { config := none, runtime := ⟨m.freshRuntime, none, [], 0⟩, states := ∅, reports := ∅, store := none,
      checkpoint := 0, reuseStore := false, touched := [] })

def prepareConfiguration (lib : Stdlib) (config : Option Config) (now : Nat) (env : ConfigureEnv) (m : Manager) :
    Manager × Except ManagerError Stage :=
  match config with
  | none =>
    let (m, stage) := m.emptyStage
    (m, .ok stage)
  | some config =>
    if !config.enabled then
      let (m, stage) := m.emptyStage
      (m, .ok stage)
    else
      match m.stageMaps lib config env with
      | (m, .error e) => (m, .error (.staging e))
      | (m, .ok maps) =>
        let (m, stage) := m.fillStage lib config now maps
        match env.portal with
        | .error e => (m, .error (.staging ("start traffic-control portal: " ++ e)))
        | .ok () => (m, .ok stage)

def touchStates (refs : List Nat) (now : Nat) (m : Manager) : Manager :=
  refs.foldl (fun m ref => m.modifyState ref (fun state => { state with lastSeen := unixOf now })) m

/-- The store after a commit; a store that is kept only gets its new size limit. -/
def stagedStore (stage : Stage) (m : Manager) : Option Store :=
  if stage.reuseStore then
    m.store.map (fun store => { store with maxSize := (stage.config.map Config.maxStoreSize).getD store.maxSize })
  else stage.store

/-- The publication in `configure`, under the record gate of the old runtime. -/
def commitStage (stage : Stage) (now : Nat) (m : Manager) : Manager :=
  let published : Manager :=
    { m with
      store := m.stagedStore stage
      states := stage.states
      table := { m.table with reports := stage.reports }
      lastCheckpoint := stage.checkpoint
      revision := m.revision + 1
      runtime := { stage.runtime with generation := m.revision + 1 }
      dirty := stage.config.isSome }
  published.touchStates stage.touched now

/-- `Manager.configure`, with the clock readings of the staging and of the commit. -/
def configure (lib : Stdlib) (config : Option Config) (staged committed : Nat) (env : ConfigureEnv)
    (m : Manager) : Manager × Except ManagerError Unit :=
  match m.prepareConfiguration lib config staged env with
  | (m, .error e) => (m, .error e)
  | (m, .ok stage) =>
    match m.flushLocked committed env.flush with
    | (m, .error e) => (m, .error e)
    | (m, .ok ()) => (m.commitStage stage committed, .ok ())

end Manager

end AsterCore
