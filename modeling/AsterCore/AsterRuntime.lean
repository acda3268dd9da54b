import AsterCore.AsterInbounds

namespace AsterCore.Aster

open List

structure Config where
  secret : String
  publicBaseURL : String := ""
  storePath : String
  managedListeners : List String := []
  deriving DecidableEq

structure TrafficKey where
  inbound : String
  userID : String
  deriving DecidableEq

structure TrafficCounter where
  generation : UInt64 := 0
  upload : Int64 := 0
  download : Int64 := 0
  deriving DecidableEq

/-- The counters, which runtimes share by pointer. The next counter is allocated at `next`. -/
structure CounterHeap where
  cell : Nat → TrafficCounter := fun _ => {}
  next : Nat := 0

def CounterHeap.alloc (heap : CounterHeap) (counter : TrafficCounter) : CounterHeap :=
  ⟨Function.update heap.cell heap.next counter, heap.next + 1⟩

structure RuntimeUser where
  revision : Int64
  user : User

structure RuntimeState where
  secret : String := ""
  publicBaseURL : String := ""
  storePath : String := ""
  managed : List String := []
  traffic : GoMap TrafficKey Nat := ∅
  users : GoMap String RuntimeUser := ∅
  subscriptions : GoMap String String := ∅

/-- A user where the loops over the listeners of a store and over the users of a listener meet it. -/
structure Place where
  inbound : String
  state : ListenerState
  position : Nat
  user : User

def Place.key (p : Place) : TrafficKey := ⟨p.inbound, p.user.id⟩

/-- The rounds of `for inbound, state := range store.Listeners { for position, user := range state.Users`. -/
def Store.places (store : Store) : List Place :=
  store.listeners.entries.flatMap fun e => e.2.users.zipIdx.map fun p => ⟨e.1, e.2, p.2, p.1⟩

structure UserLocation where
  inbound : String
  index : Nat
  deriving DecidableEq

def buildUserIndex (store : Store) : GoMap String UserLocation :=
  store.places.foldl (fun index p => index.insert p.user.id ⟨p.inbound, p.position⟩) ∅

def findUserInListener (state : ListenerState) (userID : String) : Option User := state.users.find? fun user => user.id = userID

def findUser (store : Store) (userID : String) : Option (String × ListenerState × User) :=
  store.listeners.entries.findSome? fun e => (findUserInListener e.2 userID).map fun user => (e.1, e.2, user)

def indexedUser (index : GoMap String UserLocation) (store : Store) (userID : String) :
    Option (String × ListenerState × User) :=
  match index.lookup userID with
  | none => none
  | some location =>
    match store.listeners.lookup location.inbound with
    | none => none
    | some state =>
      match state.users[location.index]? with
      | none => none
      | some user => if user.id ≠ userID then none else some (location.inbound, state, user)

def reindexListener (index : GoMap String UserLocation) (previous current : ListenerState) : GoMap String UserLocation :=
  current.users.zipIdx.foldl (fun index p => index.insert p.1.id ⟨current.name, p.2⟩)
    ((previous.users.map User.id).foldl (fun index id => index.erase id) index)

def User.managed (user : User) : ManagedUser := ⟨user.id, user.name, user.uuid, user.password, user.flow⟩

def activeManagedUsers (state : ListenerState) : List ManagedUser := (state.users.filter User.enabled).map User.managed

def addTraffic (current value : Int64) : Int64 :=
  if Int64.maxValue - value < current then Int64.maxValue else current + value

def liveCounter (heap : CounterHeap) (runtime : RuntimeState) (key : TrafficKey) (generation : UInt64) : Option TrafficCounter :=
  ((runtime.traffic.lookup key).map heap.cell).filter fun counter => counter.generation = generation

def User.withTraffic (user : User) (counter : TrafficCounter) : User :=
  { user with uploadBytes := counter.upload, downloadBytes := counter.download }

def syncUser (heap : CounterHeap) (runtime : RuntimeState) (inbound : String) (user : User) : User :=
  (liveCounter heap runtime ⟨inbound, user.id⟩ user.trafficGeneration).elim user user.withTraffic

def ListenerState.mapUsers (f : User → User) (state : ListenerState) : ListenerState := { state with users := state.users.map f }

def Store.mapUsers (f : String → User → User) (store : Store) : Store :=
  { store with listeners := store.listeners.mapValues fun inbound state => state.mapUsers (f inbound) }

def syncTrafficStore (heap : CounterHeap) (store : Store) (runtime : RuntimeState) : Store := store.mapUsers (syncUser heap runtime)

def sharedCounter (heap : CounterHeap) (previous : RuntimeState) (storePath : String) (p : Place) : Option Nat :=
  if previous.storePath = storePath then
    (previous.traffic.lookup p.key).filter fun ref => (heap.cell ref).generation = p.user.trafficGeneration
  else none

/-- The counter of a user in a new runtime: the one of the previous runtime, or a new one. -/
def pickCounter (heap : CounterHeap) (previous : RuntimeState) (storePath : String) (p : Place) : Nat × CounterHeap :=
  match sharedCounter heap previous storePath p with
  | some ref => (ref, heap)
  | none => (heap.next, heap.alloc ⟨p.user.trafficGeneration, p.user.uploadBytes, p.user.downloadBytes⟩)

def addRuntimeUser (previous : RuntimeState) (built : RuntimeState × CounterHeap) (p : Place) : RuntimeState × CounterHeap :=
  let picked := pickCounter built.2 previous built.1.storePath p
  let counter := picked.2.cell picked.1
  let runtime : RuntimeState := { built.1 with traffic := built.1.traffic.insert p.key picked.1 }
  if p.inbound ∈ runtime.managed then
    let copied := if counter.generation = p.user.trafficGeneration then p.user.withTraffic counter else p.user
    ({ runtime with users := runtime.users.insert p.user.id ⟨p.state.revision, copied⟩ }, picked.2)
  else (runtime, picked.2)

/-- The last loop of `buildRuntimeState`. -/
def invertSubscriptions (subscriptions : GoMap String String) : GoMap String String :=
  subscriptions.entries.foldl (fun tokens e => if e.2 ≠ "" then tokens.insert e.2 e.1 else tokens) ∅

def buildRuntimeState (config : Option Config) (storePath : String) (store : Store) (previous : RuntimeState)
    (heap : CounterHeap) : RuntimeState × CounterHeap :=
  match config with
  | none => ({}, heap)
  | some config =>
    let runtime : RuntimeState :=
      { storePath := storePath, secret := config.secret, publicBaseURL := config.publicBaseURL, managed := config.managedListeners }
    let built := store.places.foldl (addRuntimeUser previous) (runtime, heap)
    ({ built.1 with subscriptions := invertSubscriptions store.subscriptions }, built.2)

section Traffic

theorem addTraffic_toInt {current value : Int64} (hn : 0 ≤ current.toInt) (hp : 0 < value.toInt) :
    (addTraffic current value).toInt = min (current.toInt + value.toInt) Int64.maxValue.toInt := by
  have max := Int64.toInt_maxValue
  have hvl := value.toInt_lt
  have room : (Int64.maxValue - value).toInt = 2 ^ 63 - 1 - value.toInt := by
    rw [Int64.toInt_sub]
    exact Int.bmod_eq_of_le (by omega) (by omega)
  unfold addTraffic
  split
  next hf =>
    rw [Int64.lt_iff_toInt_lt] at hf
    omega
  next fits =>
    rw [Int64.lt_iff_toInt_lt] at fits
    rw [Int64.toInt_add, Int.bmod_eq_of_le (by omega) (by omega)]
    omega

def User.withoutTraffic (user : User) : User := { user with uploadBytes := 0, downloadBytes := 0 }

def TrafficOnly (f : String → User → User) : Prop := ∀ inbound user, (f inbound user).withoutTraffic = user.withoutTraffic

def Store.withoutTraffic (store : Store) : Store := store.mapUsers fun _ => User.withoutTraffic

theorem syncUser_trafficOnly (heap : CounterHeap) (runtime : RuntimeState) : TrafficOnly (syncUser heap runtime) := by
  intro inbound user
  unfold syncUser
  cases liveCounter heap runtime ⟨inbound, user.id⟩ user.trafficGeneration with
  | none | some counter => rfl

variable {f g : String → User → User} {store : Store}

theorem TrafficOnly.id (ho : TrafficOnly f) (inbound : String) (user : User) : (f inbound user).id = user.id :=
  show (f inbound user).withoutTraffic.id = user.withoutTraffic.id by rw [ho]

theorem TrafficOnly.managed (ho : TrafficOnly f) (inbound : String) (user : User) : (f inbound user).managed = user.managed :=
  show (f inbound user).withoutTraffic.managed = user.withoutTraffic.managed by rw [ho]

theorem TrafficOnly.enabled (ho : TrafficOnly f) (inbound : String) (user : User) : (f inbound user).enabled = user.enabled :=
  show (f inbound user).withoutTraffic.enabled = user.withoutTraffic.enabled by rw [ho]

theorem Store.mapUsers_congr (hs : ∀ inbound state, store.listeners.lookup inbound = some state →
    ∀ user ∈ state.users, f inbound user = g inbound user) : store.mapUsers f = store.mapUsers g := by
  unfold Store.mapUsers
  congr 1
  apply AList.ext
  apply map_congr_left
  intro e he
  have hu := map_congr_left (hs e.1 e.2 (GoMap.mem_entries_iff.mp he))
  simp only [ListenerState.mapUsers, hu]

theorem Store.mapUsers_mapUsers (store : Store) (f g : String → User → User) :
    (store.mapUsers g).mapUsers f = store.mapUsers fun inbound user => f inbound (g inbound user) := by
  unfold Store.mapUsers
  congr 1
  apply AList.ext
  simp only [GoMap.mapValues, map_map]
  apply map_congr_left
  intro e _
  simp only [Function.comp_apply, ListenerState.mapUsers, map_map]
  rfl

theorem Store.withoutTraffic_mapUsers (ho : TrafficOnly f) : (store.mapUsers f).withoutTraffic = store.withoutTraffic := by
  unfold Store.withoutTraffic
  rw [Store.mapUsers_mapUsers]
  exact Store.mapUsers_congr fun inbound _ _ user _ => ho inbound user

@[simp] theorem withoutTraffic_syncTrafficStore (heap : CounterHeap) (store : Store) (runtime : RuntimeState) :
    (syncTrafficStore heap store runtime).withoutTraffic = store.withoutTraffic :=
  Store.withoutTraffic_mapUsers (syncUser_trafficOnly heap runtime)

theorem lookup_mapUsers (f : String → User → User) (store : Store) (inbound : String) :
    (store.mapUsers f).listeners.lookup inbound = (store.listeners.lookup inbound).map (ListenerState.mapUsers (f inbound)) :=
  GoMap.lookup_mapValues _ _ _

theorem activeManagedUsers_mapUsers (only : TrafficOnly f) (inbound : String) (state : ListenerState) :
    activeManagedUsers (state.mapUsers (f inbound)) = activeManagedUsers state := by
  unfold activeManagedUsers ListenerState.mapUsers
  simp only [filter_map, map_map]
  have he : User.enabled ∘ f inbound = User.enabled := funext (only.enabled inbound)
  have hm : User.managed ∘ f inbound = User.managed := funext (only.managed inbound)
  rw [he, hm]

theorem Store.users_mapUsers (f : String → User → User) (store : Store) :
    (store.mapUsers f).users = store.listeners.entries.flatMap fun e => e.2.users.map (f e.1) := by
  unfold Store.users usersOf Store.mapUsers GoMap.mapValues
  rw [flatMap_map]
  rfl

theorem Store.map_users_mapUsers {β : Type} (ho : TrafficOnly f) {h : User → β}
    (hs : ∀ user, h user.withoutTraffic = h user) :
    (store.mapUsers f).users.map h = store.users.map h := by
  rw [Store.users_mapUsers, Store.users, usersOf, map_flatMap, map_flatMap]
  congr 1
  funext e
  rw [map_map]
  apply map_congr_left
  intro user _
  rw [Function.comp_apply, ← hs (f e.1 user), ho, hs]

theorem ValidStore.mapUsers {lib : Library} (hv : ValidStore lib store) (ho : TrafficOnly f)
    (hn : ∀ inbound user, ¬ badMetadata user → ¬ badMetadata (f inbound user)) : ValidStore lib (store.mapUsers f) where
  version := hv.version
  generation := hv.generation
  ids := by
    rw [Store.map_users_mapUsers ho (fun _ => rfl)]
    exact hv.ids
  tokens := by
    have hs : (store.mapUsers f).users.map (Store.token store.subscriptions) = store.users.map (Store.token store.subscriptions) :=
      Store.map_users_mapUsers ho (fun _ => rfl)
    show ((store.mapUsers f).users.map (Store.token store.subscriptions)).Nodup
    rw [hs]
    exact hv.tokens
  owned := by
    rw [Store.map_users_mapUsers ho (fun _ => rfl)]
    exact hv.owned
  listeners := by
    intro e he
    obtain ⟨e', he', rfl⟩ := mem_map.mp he
    have old := hv.listeners e' he'
    have hl : ∀ h : User → String, (∀ user, h user.withoutTraffic = h user) →
        (e'.2.users.map (f e'.1)).map h = e'.2.users.map h := by
      intro h hs
      rw [map_map]
      apply map_congr_left
      intro user _
      rw [Function.comp_apply, ← hs (f e'.1 user), ho, hs]
    refine ⟨old.fields, ?_, ?_, ?_⟩
    · intro _ hu
      obtain ⟨user', hu', rfl⟩ := mem_map.mp hu
      have hb := old.users user' hu'
      have hf : badUser e'.1 e'.2 (f e'.1 user').withoutTraffic ↔ badUser e'.1 e'.2 user'.withoutTraffic := by rw [ho]
      have hc : userCredentialKey lib (f e'.1 user').withoutTraffic = userCredentialKey lib user'.withoutTraffic := by rw [ho]
      have ht : Store.token store.subscriptions (f e'.1 user').withoutTraffic = Store.token store.subscriptions user'.withoutTraffic := by
        rw [ho]
      exact ⟨fun bad => hb.fields (hf.mp bad), hb.credential.imp fun key hth => hc.trans hth,
        hn e'.1 user' hb.metadata, (congrArg validSubscriptionToken ht).trans hb.token⟩
    · exact (hl (fun user => lib.toLower user.name) (fun _ => rfl)).symm ▸ old.names
    · exact (hl (credentialOf lib) (fun _ => rfl)).symm ▸ old.credentials

def CounterHeap.Nonneg (heap : CounterHeap) : Prop := ∀ ref, 0 ≤ (heap.cell ref).upload.toInt ∧ 0 ≤ (heap.cell ref).download.toInt

theorem syncUser_metadata {heap : CounterHeap} (hn : heap.Nonneg) (runtime : RuntimeState) (inbound : String) (user : User)
    (hg : ¬ badMetadata user) : ¬ badMetadata (syncUser heap runtime inbound user) := by
  unfold syncUser
  cases hl : liveCounter heap runtime ⟨inbound, user.id⟩ user.trafficGeneration with
  | none => exact hg
  | some =>
    obtain ⟨ref, _, rfl⟩ := Option.map_eq_some_iff.mp (Option.filter_eq_some_iff.mp hl).1
    obtain ⟨hu, hd⟩ := hn ref
    rintro (h | h | h | h)
    · exact hg (.inl h)
    · exact absurd (Int64.lt_iff_toInt_lt.mp h) (not_lt.mpr hu)
    · exact absurd (Int64.lt_iff_toInt_lt.mp h) (not_lt.mpr hd)
    · exact hg (.inr (.inr (.inr h)))

theorem ValidStore.sync {lib : Library} {heap : CounterHeap} (hv : ValidStore lib store) (hn : heap.Nonneg)
    (runtime : RuntimeState) : ValidStore lib (syncTrafficStore heap store runtime) :=
  hv.mapUsers (syncUser_trafficOnly heap runtime) (syncUser_metadata hn runtime)

theorem syncTrafficStore_idem (heap : CounterHeap) (store : Store) (runtime : RuntimeState) :
    syncTrafficStore heap (syncTrafficStore heap store runtime) runtime = syncTrafficStore heap store runtime := by
  unfold syncTrafficStore
  rw [Store.mapUsers_mapUsers]
  apply Store.mapUsers_congr
  intro inbound _ _ user _
  cases hl : liveCounter heap runtime ⟨inbound, user.id⟩ user.trafficGeneration with
  | none =>
    have hs : syncUser heap runtime inbound user = user := by rw [syncUser, hl, Option.elim_none]
    rw [hs, hs]
  | some counter =>
    have hs : syncUser heap runtime inbound user = user.withTraffic counter := by rw [syncUser, hl, Option.elim_some]
    have ha : liveCounter heap runtime ⟨inbound, (user.withTraffic counter).id⟩ (user.withTraffic counter).trafficGeneration =
        some counter := hl
    rw [hs, syncUser, ha]
    rfl

end Traffic

end AsterCore.Aster
