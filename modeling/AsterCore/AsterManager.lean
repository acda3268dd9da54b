import AsterCore.AsterFiles
import AsterCore.AsterViews

namespace AsterCore.Aster

/-- The manager, with the counters, the files of the stores by path, and the inbound listeners that it works on. -/
structure Manager where
  config : Option Config := none
  store : Store := {}
  userIndex : GoMap String UserLocation := ∅
  storePath : String := ""
  storeUnlock : Bool := false
  instances : GoMap String Nat := ∅
  runtime : RuntimeState := {}
  dirty : Bool := false
  flushCancel : Bool := false
  counters : CounterHeap := {}
  files : String → StoreFiles
  inbounds : Inbounds

structure SeedEnv where
  id : String
  now : Int64
  revisionNow : Int64
  userID : Nat → String
  token : Nat → Except String String

/-- What one call of the manager meets: the answers of the listeners, of the file system and of the clock. -/
structure CallEnv where
  listeners : ListenerEnv := {}
  prepareDirectory : Option String := none
  lock : Option String := none
  load : Option String := none
  before : WriteEnv := {}
  commit : WriteEnv := {}
  retire : WriteEnv := {}
  replacement : WriteEnv := {}
  closing : WriteEnv := {}
  seed : String → SeedEnv := fun _ => ⟨"", 0, 0, fun _ => "", fun _ => .ok ""⟩
  now : Int64 := 0

def nextRevision (now previous : Int64) : Int64 := if now ≤ previous then previous + 1 else now

/-- The loop of `seedListener` that makes a name unique among the lower-case names so far. It tries one name more than
there are names to avoid, and the plain name. -/
def uniqueName (lib : Library) (names : List String) (base : String) : Nat → Nat → String → Option String
  | 0, _, _ => none
  | fuel + 1, suffix, candidate =>
    if lib.toLower candidate ∉ names then some candidate
    else uniqueName lib names base fuel (suffix + 1) (base ++ "-" ++ toString suffix)

def seedUsers (lib : Library) (env : SeedEnv) (name protocol : String) :
    Nat → List String → List User → GoMap String String → List ManagedUser → Except CallError (List User × GoMap String String)
  | _, _, users, subscriptions, [] => .ok (users, subscriptions)
  | i, names, users, subscriptions, user :: configured =>
    let trimmed := trimSpace user.name
    let base := if trimmed = "" then "user-" ++ toString (i + 1) else trimmed
    match uniqueName lib names base (names.length + 2) 2 base with
    | none => .error (.plain (.other "no unique name"))
    | some candidate =>
      let seeded : User :=
        { id := env.userID i, inbound := name, protocol := protocol, name := candidate, uuid := user.uuid,
          password := user.password, flow := user.flow, enabled := true, trafficGeneration := 1, createdAt := env.now,
          updatedAt := env.now }
      match env.token i with
      | .error e => .error (.plain (.other e))
      | .ok token =>
        seedUsers lib env name protocol (i + 1) (names ++ [lib.toLower candidate]) (users ++ [seeded])
          (subscriptions.insert (env.userID i) token) configured

def seedListener (lib : Library) (env : SeedEnv) (name protocol : String) (configured : List ManagedUser)
    (subscriptions : GoMap String String) : Except CallError (ListenerState × GoMap String String) :=
  match seedUsers lib env name protocol 0 [] [] subscriptions configured with
  | .error e => .error e
  | .ok (users, subscriptions) =>
    .ok ({ id := env.id, name := name, protocol := protocol, users := users, revision := nextRevision env.revisionNow 0 }, subscriptions)

def validateConfig (lib : Library) (config : Config) : Except Failure Unit :=
  if config.secret.utf8ByteSize < 32 ∨ trimSpace config.secret ≠ config.secret then
    .error (.invalid "secret must contain at least 32 bytes without leading or trailing whitespace")
  else if config.storePath = "" then .error (.invalid "store path is required")
  else if config.publicBaseURL ≠ "" ∧ trimSpace config.publicBaseURL ≠ config.publicBaseURL then
    .error (.invalid "public base URL cannot have leading or trailing whitespace")
  else if config.publicBaseURL ≠ "" ∧ !lib.publicURL config.publicBaseURL then
    .error (.invalid "public base URL must be an absolute HTTPS URL without user information, query, or fragment")
  else validateNames [] config.managedListeners
where
  validateNames (seen : List String) : List String → Except Failure Unit
    | [] => .ok ()
    | name :: names =>
      if name = "" then .error (.invalid "managed listener name is empty")
      else if name ∈ seen then .error (.invalid ("duplicate managed listener " ++ lib.quote name))
      else validateNames (seen ++ [name]) names

/-- What `prepareChangesLocked` has gathered: the store with seeded listeners, the changes and the instances. -/
structure Prepared where
  store : Store
  changes : List ListenerChange := []
  instances : GoMap String Nat := ∅

def listenerStateOf (lib : Library) (env : SeedEnv) (name : String) (l : ManagedInbound) (store : Store) :
    Except CallError (ListenerState × Store) :=
  match store.listeners.lookup name with
  | some state => .ok (state, store)
  | none =>
    match seedListener lib env name l.protocol l.configured store.subscriptions with
    | .error e => .error e
    | .ok (state, subscriptions) =>
      .ok (state, { store with listeners := store.listeners.insert name state, subscriptions := subscriptions })

/-- One round of `prepareChangesLocked`. -/
def prepareListener (lib : Library) (env : CallEnv) (managed : List String) (inbounds : Inbounds) (prepared : Prepared) (name : String) :
    Except CallError Prepared :=
  match inbounds name with
  | .managed l =>
    if name ∈ managed then
      match listenerStateOf lib (env.seed name) name l prepared.store with
      | .error e => .error e
      | .ok (state, store) =>
        if state.protocol ≠ l.protocol then
          .error (.plain (.other ("listener " ++ lib.quote name ++ " changed protocol from " ++ state.protocol ++ " to " ++ l.protocol)))
        else .ok
          { store := store
            changes := prepared.changes ++ [⟨name, l.identity, l.current, activeManagedUsers state⟩]
            instances := prepared.instances.insert name l.identity }
    else .ok { prepared with changes := prepared.changes ++ [⟨name, l.identity, l.current, l.configured⟩] }
  | missing => if name ∈ managed then .error (missingListener lib name missing) else .ok prepared

def prepareListeners (lib : Library) (env : CallEnv) (managed : List String) (inbounds : Inbounds) :
    Prepared → List String → Except CallError Prepared
  | prepared, [] => .ok prepared
  | prepared, name :: names =>
    match prepareListener lib env managed inbounds prepared name with
    | .error e => .error e
    | .ok prepared => prepareListeners lib env managed inbounds prepared names

def markApplied (instances : GoMap String Nat) (changes : List ListenerChange) (store : Store) : Store :=
  { store with listeners := store.listeners.mapValues fun name state =>
      if (∃ change ∈ changes, change.name = name) ∧ (instances.lookup name).isSome then
        { state with appliedRevision := state.revision } else state }

structure CreateUserInput where
  inbound : String
  name : String
  uuid : String := ""
  password : String := ""
  flow : String := ""
  enabled : Option Bool := none

structure UpdateUserInput where
  name : Option String := none
  uuid : Option String := none
  password : Option String := none
  flow : Option String := none
  enabled : Option Bool := none

structure CreateEnv where
  id : String
  createdAt : Int64
  updatedAt : Int64
  uuid : String := ""
  password : Except String String := .ok ""
  token : Except String String

inductive Mutation
  | create (input : CreateUserInput) (env : CreateEnv)
  | update (userID : String) (input : UpdateUserInput) (now : Int64)
  | delete (userID : String)
  | reset (userID : String) (now : Int64)
  | rotate (userID : String) (token : Except String String)

def replaceUser (userID : String) (f : User → User) : List User → List User
  | [] => []
  | user :: users => if user.id = userID then f user :: users else user :: replaceUser userID f users

/-- The change of `UpdateUser` and `ResetTraffic` to the user that `findUserInListener` returns, which is never nil there. -/
def changeUser (subscriptions : GoMap String String) (state : ListenerState) (userID : String) (f : User → User) :
    Except Failure (GoMap String String × ListenerState) :=
  match findUserInListener state userID with
  | none => .error (.other "invalid memory address or nil pointer dereference")
  | some _ => .ok (subscriptions, { state with users := replaceUser userID f state.users })

def createdUser (input : CreateUserInput) (env : CreateEnv) (protocol : String) : Except Failure User :=
  let user : User :=
    { id := env.id, inbound := input.inbound, protocol := protocol, name := trimSpace input.name, uuid := input.uuid,
      password := input.password, flow := input.flow, enabled := input.enabled.getD true, trafficGeneration := 1,
      createdAt := env.createdAt, updatedAt := env.updatedAt }
  let user := if protocol = "vless" ∧ user.uuid = "" then { user with uuid := env.uuid } else user
  if protocol = "anytls" ∧ user.password = "" then
    match env.password with
    | .error e => .error (.other e)
    | .ok password => .ok { user with password := password }
  else .ok user

def updatedUser (input : UpdateUserInput) (now : Int64) (user : User) : User :=
  { user with
    name := input.name.elim user.name trimSpace
    uuid := input.uuid.getD user.uuid
    password := input.password.getD user.password
    flow := input.flow.getD user.flow
    enabled := input.enabled.getD user.enabled
    updatedAt := now }

/-- The function that a request passes to `mutateListenerLocked`. -/
def Mutation.apply (subscriptions : GoMap String String) (state : ListenerState) :
    Mutation → Except Failure (GoMap String String × ListenerState)
  | .create input env =>
    if trimSpace input.name = "" then .error (.invalid "user name is required")
    else
      match createdUser input env state.protocol with
      | .error e => .error e
      | .ok user =>
        match env.token with
        | .error e => .error (.other e)
        | .ok token => .ok (subscriptions.insert user.id token, { state with users := state.users ++ [user] })
  | .update userID input now => changeUser subscriptions state userID (updatedUser input now)
  | .delete userID =>
    match findUserInListener state userID with
    | none => .error .notFound
    | some _ =>
      .ok (subscriptions.erase userID, { state with users := state.users.eraseP fun user => user.id = userID })
  | .reset userID now =>
    changeUser subscriptions state userID fun user =>
      { user with uploadBytes := 0, downloadBytes := 0, trafficGeneration := user.trafficGeneration + 1, updatedAt := now }
  | .rotate userID token =>
    match token with
    | .error e => .error (.other e)
    | .ok token => .ok (subscriptions.insert userID token, state)

/-- What a request returns; the user is nil only if the index does not have it. -/
structure Reply where
  user : Option User := none
  token : String := ""
  revision : Int64
  deriving DecidableEq

namespace Manager

def syncTrafficLocked (m : Manager) : Manager := { m with store := syncTrafficStore m.counters m.store m.runtime }

def persistStore (lib : Library) (write : WriteEnv) (m : Manager) (path : String) (store : Store) : Manager × Except Failure Store :=
  let saved := saveStoreLocked lib write (m.files path) store
  ({ m with files := Function.update m.files path saved.1 }, saved.2)

def persist (lib : Library) (write : WriteEnv) (m : Manager) : Manager × Option Failure :=
  match m.persistStore lib write m.storePath m.store with
  | (m, .error e) => (m, some e)
  | (m, .ok store) => ({ m with store := store }, none)

def persistOpen (lib : Library) (write : WriteEnv) (m : Manager) : Manager × Option Failure :=
  if m.storePath ≠ "" then m.persist lib write else (m, none)

/-- `swapRuntimeLocked`; nobody is recording. The second result is the retiring store. -/
def swapRuntimeLocked (m : Manager) (next : RuntimeState × CounterHeap) (retiring : Store) : Manager × Store :=
  ({ m with runtime := next.1, counters := next.2 }, syncTrafficStore next.2 retiring m.runtime)

def swapRuntime (m : Manager) (next : RuntimeState × CounterHeap) : Manager :=
  { (m.swapRuntimeLocked next m.store).1 with store := (m.swapRuntimeLocked next m.store).2 }

def rebuiltRuntime (m : Manager) : RuntimeState × CounterHeap := buildRuntimeState m.config m.storePath m.store m.runtime m.counters

def publishLocked (m : Manager) : Manager := m.swapRuntime m.rebuiltRuntime

def releaseStoreLocked (m : Manager) : Manager := { m with storeUnlock := false, store := {}, userIndex := ∅, storePath := "" }

def stopFlusherLocked (m : Manager) : Manager := { m with flushCancel := false }

def managedListeners (m : Manager) : List String := m.config.elim [] Config.managedListeners

def failClosedStateLocked (lib : Library) (env : CallEnv) (names : List String) (m : Manager) : Manager × Option CallError :=
  let closed := failClosedListeners lib env.listeners (sortedSetKeys (names ++ m.managedListeners)) m.inbounds
  let m := { m with inbounds := closed.1 }.swapRuntime ({}, m.counters)
  match m.persistOpen lib env.closing with
  | (m, some e) =>
    ({ m with config := none, instances := ∅, dirty := true },
      CallError.join closed.2 (some (.wrapped "persist retired Aster traffic while failing closed" (.plain e))))
  | (m, none) => ({ m with config := none, instances := ∅, dirty := false }.stopFlusherLocked.releaseStoreLocked, closed.2)

/-- `rollbackChanges` after an error, and `failClosedStateLocked` if that fails too. -/
def undo (lib : Library) (env : CallEnv) (names : List String) (changes : List ListenerChange) (e : CallError) (m : Manager) :
    Manager × CallError :=
  let back := rollbackChanges lib env.listeners changes m.inbounds
  let m := { m with inbounds := back.1 }
  match back.2 with
  | none => (m, e)
  | some e' =>
    let closed := m.failClosedStateLocked lib env names
    (closed.1, .joined e (closed.2.elim e' (.joined e')))

/-- The error of `applyChanges` in a call: `failClosedStateLocked` if its rollback failed. -/
def stuck (lib : Library) (env : CallEnv) (names : List String) (e : CallError) (m : Manager) : Manager × CallError :=
  let closed := m.failClosedStateLocked lib env names
  (closed.1, closed.2.elim e (.joined e))

/-- The first part of `Configure` and `FailClosed`: unsaved traffic is saved. -/
def saveTraffic (lib : Library) (env : CallEnv) (m : Manager) : Manager × Option Failure :=
  let synced := { m with dirty := false }.syncTrafficLocked
  if m.dirty ∧ m.storePath ≠ "" then
    match synced.persist lib env.before with
    | (m, some e) => ({ m with dirty := true }, some e)
    | (m, none) => (m, none)
  else (synced, none)

def disableChange (inbounds : Inbounds) (name : String) : Option ListenerChange :=
  match inbounds name with
  | .managed l => some ⟨name, l.identity, l.current, l.configured⟩
  | _ => none

def disableChanges (inbounds : Inbounds) (names : List String) : List ListenerChange := names.filterMap (disableChange inbounds)

def disableLocked (lib : Library) (env : CallEnv) (m : Manager) : Manager × Option CallError :=
  match m.config with
  | none => (m.stopFlusherLocked.releaseStoreLocked, none)
  | some config =>
    let names := sortedSetKeys config.managedListeners
    let changes := disableChanges m.inbounds names
    match applyChanges lib env.listeners changes m.inbounds with
    | (inbounds, .stuck e) => (stuck lib env names e { m with inbounds := inbounds }).map id some
    | (inbounds, .undone e) => ({ m with inbounds := inbounds }, some e)
    | (inbounds, .done) =>
      match ({ m with inbounds := inbounds }.swapRuntime ({}, m.counters)).persistOpen lib env.retire with
      | (m, some e) =>
        (undo lib env names changes (.wrapped "persist retired Aster traffic before disabling" (.plain e))
          { m.publishLocked with dirty := true }).map id some
      | (m, none) => ({ m with config := none, instances := ∅, dirty := false }.stopFlusherLocked.releaseStoreLocked, none)

def openStore (lib : Library) (env : CallEnv) (m : Manager) (config : Config) (sameStore : Bool) : Except CallError Store :=
  match if sameStore then none else env.prepareDirectory.or env.lock with
  | some e => .error (.plain (.other e))
  | none =>
    match env.load with
    | some e => .error (.plain (.other e))
    | none =>
      match loadStore lib (m.files config.storePath) with
      | .error e => .error (.plain e)
      | .ok (store, _) => .ok store

/-- The end of `Configure` with another store than before. -/
def switchStore (lib : Library) (env : CallEnv) (config : Config) (prepared : Prepared) (store : Store) (m : Manager) :
    Manager × Option CallError :=
  let next := m.swapRuntime (buildRuntimeState (some config) config.storePath store m.runtime m.counters)
  match next.persistOpen lib env.retire with
  | (m, some e) =>
    let restored := m.swapRuntimeLocked m.rebuiltRuntime store
    let again := restored.1.persistStore lib env.replacement config.storePath restored.2
    let e := CallError.wrapped "persist retired Aster traffic before changing store" (.plain e)
    let e := match again.2 with
      | .error e' => .joined e (.wrapped "persist traffic recorded by replacement Aster runtime" (.plain e'))
      | .ok _ => e
    (undo lib env config.managedListeners prepared.changes e { again.1 with dirty := true }).map id some
  | (m, none) =>
    ({ m with
      config := some config, store := store, userIndex := buildUserIndex store, storePath := config.storePath,
      storeUnlock := true, instances := prepared.instances, flushCancel := true }, none)

def commitConfig (lib : Library) (env : CallEnv) (config : Config) (sameStore : Bool) (prepared : Prepared) (m : Manager) :
    Manager × Option CallError :=
  match applyChanges lib env.listeners prepared.changes m.inbounds with
  | (inbounds, .stuck e) => (stuck lib env config.managedListeners e { m with inbounds := inbounds }).map id some
  | (inbounds, .undone e) => ({ m with inbounds := inbounds }, some e)
  | (inbounds, .done) =>
    match { m with inbounds := inbounds }.persistStore lib env.commit config.storePath
        (markApplied prepared.instances prepared.changes prepared.store) with
    | (m, .error e) =>
      (undo lib env config.managedListeners prepared.changes (.wrapped "persist Aster state" (.plain e)) m).map id some
    | (m, .ok store) =>
      if sameStore then
        ({ { m with
          config := some config, store := store, userIndex := buildUserIndex store, storePath := config.storePath,
          instances := prepared.instances }.publishLocked with flushCancel := true }, none)
      else switchStore lib env config prepared store m

/-- `Configure` from `validateConfig` on. -/
def reconfigure (lib : Library) (env : CallEnv) (config : Config) (m : Manager) : Manager × Option CallError :=
  match validateConfig lib config with
  | .error e => (m, some (.plain e))
  | .ok () =>
    let sameStore := m.storeUnlock && m.storePath == config.storePath
    match openStore lib env m config sameStore with
    | .error e => (m, some e)
    | .ok store =>
      match prepareListeners lib env config.managedListeners m.inbounds { store := store }
          (sortedSetKeys (config.managedListeners ++ m.managedListeners)) with
      | .error e => (m, some e)
      | .ok prepared =>
        match validateStore lib prepared.store with
        | .error e => (m, some (.plain e))
        | .ok () => commitConfig lib env config sameStore prepared m

def configure (lib : Library) (env : CallEnv) (config : Option Config) (m : Manager) : Manager × Option CallError :=
  match m.saveTraffic lib env with
  | (m, some e) => (m, some (.wrapped "persist Aster traffic before reconfigure" (.plain e)))
  | (m, none) =>
    match config with
    | none => m.disableLocked lib env
    | some config => m.reconfigure lib env config

def failClosed (lib : Library) (env : CallEnv) (names : List String) (m : Manager) : Manager × Option CallError :=
  let saved := m.saveTraffic lib env
  let closed := saved.1.failClosedStateLocked lib env names
  (closed.1, CallError.join (saved.2.map fun e => .wrapped "persist Aster traffic while failing closed" (.plain e)) closed.2)

/-- `mutateListenerLocked` from the call of `mutate` on; the traffic is synchronized and `current` is the listener. -/
def commitMutation (lib : Library) (env : CallEnv) (inbound : String) (current : ListenerState) (mutation : Mutation) (m : Manager) :
    Manager × Except CallError ListenerState :=
  match mutation.apply m.store.subscriptions current with
  | .error e => (m, .error (.plain e))
  | .ok (subscriptions, mutated) =>
    let revision := nextRevision env.now current.revision
    let state := { mutated with revision := revision, appliedRevision := revision }
    let candidate := { m.store with listeners := m.store.listeners.insert inbound state, subscriptions := subscriptions }
    match validateStore lib candidate with
    | .error e => (m, .error (.plain e))
    | .ok () =>
      let change : ListenerChange :=
        ⟨inbound, (m.instances.lookup inbound).getD 0, activeManagedUsers current, activeManagedUsers state⟩
      let changes := if change.before = change.after then [] else [change]
      match applyChanges lib env.listeners changes m.inbounds with
      | (inbounds, .stuck e) => (stuck lib env [] e { m with inbounds := inbounds }).map id .error
      | (inbounds, .undone e) => ({ m with inbounds := inbounds }, .error e)
      | (inbounds, .done) =>
        match { m with inbounds := inbounds }.persistStore lib env.commit m.storePath candidate with
        | (m, .error e) => (undo lib env [] changes (.wrapped "persist Aster mutation" (.plain e)) m).map id .error
        | (m, .ok candidate) =>
          ({ m with store := candidate, userIndex := reindexListener m.userIndex current state }.publishLocked, .ok state)

def mutateListenerLocked (lib : Library) (env : CallEnv) (inbound : String) (expectedRevision : Int64) (mutation : Mutation)
    (m : Manager) : Manager × Except CallError ListenerState :=
  if expectedRevision ≤ 0 then (m, .error (.plain (.invalid "revision must be a positive integer")))
  else
    match m.store.listeners.lookup inbound with
    | none => (m, .error (.plain .notFound))
    | some current =>
      if current.revision ≠ expectedRevision then
        (m, .error (.plain (.conflict ("expected " ++ toString expectedRevision ++ ", current " ++ toString current.revision))))
      else
        let synced := { m with dirty := false }.syncTrafficLocked
        match synced.store.listeners.lookup inbound with
        | none => (m, .error (.plain .notFound))
        | some current =>
          match commitMutation lib env inbound current mutation synced with
          | (after, .ok state) => (after, .ok state)
          | (after, .error e) => ({ after with dirty := m.dirty || after.dirty }, .error e)

def inboundOf (m : Manager) : Mutation → Option String
  | .create input _ => some input.inbound
  | .update userID _ _ => (indexedUser m.userIndex m.store userID).map Prod.fst
  | .delete userID => (indexedUser m.userIndex m.store userID).map Prod.fst
  | .reset userID _ => (indexedUser m.userIndex m.store userID).map Prod.fst
  | .rotate userID _ => (indexedUser m.userIndex m.store userID).map Prod.fst

def replyTo (m : Manager) (state : ListenerState) : Mutation → Reply
  | .create _ env => { user := (indexedUser m.userIndex m.store env.id).map fun found => found.2.2, revision := state.revision }
  | .update userID _ _ => { user := (indexedUser m.userIndex m.store userID).map fun found => found.2.2, revision := state.revision }
  | .delete _ => { revision := state.revision }
  | .reset userID _ => { user := (indexedUser m.userIndex m.store userID).map fun found => found.2.2, revision := state.revision }
  | .rotate _ token => { token := token.toOption.getD "", revision := state.revision }

/-- `CreateUser`, `UpdateUser`, `DeleteUser`, `ResetTraffic` and `RotateSubscription`. -/
def request (lib : Library) (env : CallEnv) (mutation : Mutation) (expectedRevision : Int64) (m : Manager) :
    Manager × Except CallError Reply :=
  if m.config = none then (m, .error (.plain .disabled))
  else
    match m.inboundOf mutation with
    | none => (m, .error (.plain .notFound))
    | some inbound =>
      if inbound ∉ m.runtime.managed then (m, .error (.plain .notFound))
      else
        match m.mutateListenerLocked lib env inbound expectedRevision mutation with
        | (m, .error e) => (m, .error e)
        | (m, .ok state) => (m, .ok (m.replyTo state mutation))

def flush (lib : Library) (env : CallEnv) (m : Manager) : Manager × Option CallError :=
  if m.dirty then
    if m.storePath = "" then (m, none)
    else
      match { m with dirty := false }.syncTrafficLocked.persist lib env.before with
      | (m, some e) => ({ m with dirty := true }, some (.wrapped "persist Aster traffic" (.plain e)))
      | (m, none) => (if m.config = none then m.stopFlusherLocked.releaseStoreLocked else m, none)
  else (if m.config = none ∧ m.storePath ≠ "" then m.stopFlusherLocked.releaseStoreLocked else m, none)

end Manager

def CounterHeap.add (heap : CounterHeap) (ref : Nat) (upload download : Int64) : CounterHeap :=
  let counter := heap.cell ref
  let counter := if 0 < upload then { counter with upload := addTraffic counter.upload upload } else counter
  let counter := if 0 < download then { counter with download := addTraffic counter.download download } else counter
  { heap with cell := Function.update heap.cell ref counter }

namespace Manager

def recordTraffic (inbound userID : String) (upload download : Int64) (m : Manager) : Manager :=
  if inbound = "" ∨ userID = "" ∨ upload ≤ 0 ∧ download ≤ 0 then m
  else
    match m.runtime.traffic.lookup ⟨inbound, userID⟩ with
    | none => m
    | some ref => { m with counters := m.counters.add ref upload download, dirty := true }

end Manager

/-- The calls of the manager. `list` stands for the calls that only synchronize the traffic before they read. -/
inductive Op
  | configure (config : Option Config) (env : CallEnv)
  | request (mutation : Mutation) (expectedRevision : Int64) (env : CallEnv)
  | recordTraffic (inbound userID : String) (upload download : Int64)
  | flush (env : CallEnv)
  | failClosed (names : List String) (env : CallEnv)
  | list

namespace Manager

def new (files : String → StoreFiles) (inbounds : Inbounds) : Manager := { files := files, inbounds := inbounds }

def perform (lib : Library) (m : Manager) : Op → Manager
  | .configure config env => (m.configure lib env config).1
  | .request mutation expectedRevision env => (m.request lib env mutation expectedRevision).1
  | .recordTraffic inbound userID upload download => m.recordTraffic inbound userID upload download
  | .flush env => (m.flush lib env).1
  | .failClosed names env => (m.failClosed lib env names).1
  | .list => if m.config = none then m else m.syncTrafficLocked

def run (lib : Library) (m : Manager) (ops : List Op) : Manager := ops.foldl (perform lib) m

end Manager

end AsterCore.Aster
