import AsterCore.AsterManager

namespace AsterCore.Aster

open List Function

structure Agrees (runtime : RuntimeState) (heap : CounterHeap) (config : Config) (path : String) (store : Store) : Prop where
  header : runtime =
    { storePath := path, secret := config.secret, publicBaseURL := config.publicBaseURL, managed := config.managedListeners,
      traffic := runtime.traffic, users := runtime.users, subscriptions := runtime.subscriptions }
  subscriptions : ∀ token id, runtime.subscriptions.lookup token = some id ↔ store.subscriptions.lookup id = some token
  users : ∀ id entry, (runtime.users.lookup id).map RuntimeUser.withoutTraffic = some entry ↔
    ∃ p ∈ store.places, p.inbound ∈ config.managedListeners ∧ p.user.id = id ∧ entry = (p.state.revision, p.user.withoutTraffic)
  counters : ∀ p ∈ store.places, ∃ ref, runtime.traffic.lookup p.key = some ref ∧ (heap.cell ref).generation = p.user.trafficGeneration
  keys : ∀ key ref, runtime.traffic.lookup key = some ref → ∃ p ∈ store.places, p.key = key

def Synced (heap : CounterHeap) (store : Store) (runtime : RuntimeState) : Prop := syncTrafficStore heap store runtime = store

structure SameRuntime (a b : RuntimeState × CounterHeap) : Prop where
  header : { b.1 with traffic := ∅, users := ∅, subscriptions := ∅ } = { a.1 with traffic := ∅, users := ∅, subscriptions := ∅ }
  subscriptions : ∀ token, b.1.subscriptions.lookup token = a.1.subscriptions.lookup token
  users : ∀ id, (b.1.users.lookup id).map RuntimeUser.withoutTraffic = (a.1.users.lookup id).map RuntimeUser.withoutTraffic
  counters : ∀ key, (b.1.traffic.lookup key).map b.2.cell = (a.1.traffic.lookup key).map a.2.cell

theorem SameRuntime.trans {a b c : RuntimeState × CounterHeap} (h : SameRuntime a b) (h' : SameRuntime b c) : SameRuntime a c :=
  ⟨h'.header.trans h.header, fun token => (h'.subscriptions token).trans (h.subscriptions token), fun id => (h'.users id).trans (h.users id),
    fun key => (h'.counters key).trans (h.counters key)⟩

theorem SameRuntime.refl (a : RuntimeState × CounterHeap) : SameRuntime a a := ⟨rfl, fun _ => rfl, fun _ => rfl, fun _ => rfl⟩

section Agreement

variable {lib : Library} {config : Config} {path : String} {store : Store} {runtime previous : RuntimeState} {heap heap' : CounterHeap}

theorem agrees_build (hv : ValidStore lib store) (hpo : previous.traffic.Pointers heap.next) :
    Agrees (buildRuntimeState (some config) path store previous heap).1
    (buildRuntimeState (some config) path store previous heap).2
      config path store := by
  have hb : Built previous _ heap store.places (buildRuntimeState (some config) path store previous heap) :=
    buildRuntimeState_built hpo hv.ids
  refine ⟨?_, fun token id => ?_, hb.users, fun p hp => ?_, hb.keys⟩
  · rw [hb.frame]
  · rw [hb.frame]
    exact lookup_invertSubscriptions hv
  · obtain ⟨ref, ht, _⟩ := hb.counters p hp
    exact ⟨ref, ht, hb.generation hpo hp ht⟩

section

variable (h : Agrees runtime heap config path store)

include h

theorem Agrees.mapUsers {f : String → User → User} (ho : TrafficOnly f) :
    Agrees runtime heap config path (store.mapUsers f) := by
  refine ⟨h.header, h.subscriptions, fun id entry => ?_, fun p hp => ?_, fun key ref ht => ?_⟩
  · rw [h.users, places_mapUsers]
    constructor
    · rintro ⟨p, hp, hm, rfl, rfl⟩
      exact ⟨_, mem_map_of_mem hp, hm, ho.id _ _, Prod.ext rfl (ho _ _).symm⟩
    · rintro ⟨_, ht, hm, rfl, rfl⟩
      obtain ⟨p, hp, rfl⟩ := mem_map.mp ht
      exact ⟨p, hp, hm, (ho.id _ _).symm, Prod.ext rfl (ho _ _)⟩
  · rw [places_mapUsers] at hp
    obtain ⟨q, hq, rfl⟩ := mem_map.mp hp
    obtain ⟨ref, ht, hg⟩ := h.counters q hq
    have key : (q.map f).key = q.key := congrArg (TrafficKey.mk q.inbound) (ho.id _ _)
    refine ⟨ref, key ▸ ht, hg.trans ?_⟩
    show q.user.withoutTraffic.trafficGeneration = (f q.inbound q.user).withoutTraffic.trafficGeneration
    rw [ho]
  · obtain ⟨p, hp, rfl⟩ := h.keys key ref ht
    rw [places_mapUsers]
    exact ⟨_, mem_map_of_mem hp, congrArg (TrafficKey.mk p.inbound) (ho.id _ _)⟩

theorem Agrees.sync (heap' : CounterHeap) (runtime' : RuntimeState) :
    Agrees runtime heap config path (syncTrafficStore heap' store runtime') :=
  h.mapUsers (syncUser_trafficOnly heap' runtime')

theorem Agrees.keep
    (same : ∀ ref, (heap'.cell ref).generation = (heap.cell ref).generation) : Agrees runtime heap' config path store := by
  refine ⟨h.header, h.subscriptions, h.users, fun p hp => ?_, h.keys⟩
  obtain ⟨ref, there, generation⟩ := h.counters p hp
  exact ⟨ref, there, (same ref).trans generation⟩

theorem Agrees.generation (generation : UInt64) : Agrees runtime heap config path { store with generation := generation } :=
  ⟨h.header, h.subscriptions, h.users, h.counters, h.keys⟩

end

variable {p : Place}

theorem Synced.user (hs : Synced heap store runtime) (hp : p ∈ store.places) :
    syncUser heap runtime p.inbound p.user = p.user := by
  obtain ⟨hl, hu⟩ := mem_places.mp hp
  have ha := lookup_mapUsers (syncUser heap runtime) store p.inbound
  rw [show store.mapUsers (syncUser heap runtime) = store from hs, hl] at ha
  have hst : p.state = p.state.mapUsers (syncUser heap runtime p.inbound) := Option.some.inj ha
  have synced := hst ▸ hu
  rw [ListenerState.mapUsers, getElem?_map, hu] at synced
  exact Option.some.inj synced

theorem synced_iff : Synced heap store runtime ↔ ∀ p ∈ store.places, ∀ counter,
    liveCounter heap runtime p.key p.user.trafficGeneration = some counter →
      p.user.uploadBytes = counter.upload ∧ p.user.downloadBytes = counter.download := by
  constructor
  · intro hs p hp _ hl
    have same := hs.user hp
    rw [syncUser, show liveCounter heap runtime ⟨p.inbound, p.user.id⟩ _ = _ from hl] at same
    exact ⟨(congrArg User.uploadBytes same).symm, (congrArg User.downloadBytes same).symm⟩
  · intro h
    have hpl : store.mapUsers (fun _ user => user) = store := by
      unfold Store.mapUsers GoMap.mapValues ListenerState.mapUsers
      simp only [map_id']
    unfold Synced syncTrafficStore
    rw [← hpl, Store.mapUsers_mapUsers]
    apply Store.mapUsers_congr
    intro inbound _ ht user mem
    obtain ⟨_, hp⟩ := places_of_mem ht mem
    rw [syncUser]
    cases hl : liveCounter heap runtime ⟨inbound, user.id⟩ user.trafficGeneration with
    | none => rfl
    | some counter =>
      obtain ⟨hu, hd⟩ := h _ hp counter hl
      rw [Option.elim_some, User.withTraffic, ← hu, ← hd]

theorem Agrees.live (h : Agrees runtime heap config path store) (hs : Synced heap store runtime) (hp : p ∈ store.places) :
    (runtime.traffic.lookup p.key).map heap.cell = some ⟨p.user.trafficGeneration, p.user.uploadBytes, p.user.downloadBytes⟩ := by
  obtain ⟨ref, ht, hg⟩ := h.counters p hp
  have hl : liveCounter heap runtime p.key p.user.trafficGeneration = some (heap.cell ref) := by
    rw [liveCounter, ht]
    simp [hg]
  obtain ⟨hu, hd⟩ := synced_iff.mp hs p hp _ hl
  rw [ht, Option.map_some, ← hg, hu, hd]

theorem ValidStore.bytes (hv : ValidStore lib store) (hp : p ∈ store.places) :
    0 ≤ p.user.uploadBytes.toInt ∧ 0 ≤ p.user.downloadBytes.toInt := by
  obtain ⟨ht, hh⟩ := mem_places.mp hp
  have hu := (hv.listeners _ (GoMap.mem_entries_iff.mpr ht)).users p.user (mem_of_getElem? hh)
  have zero : (0 : Int64).toInt = 0 := rfl
  constructor
  · by_contra hn
    exact hu.metadata (.inr (.inl (Int64.lt_iff_toInt_lt.mpr (by omega))))
  · by_contra hn
    exact hu.metadata (.inr (.inr (.inl (Int64.lt_iff_toInt_lt.mpr (by omega)))))

theorem build_same (hv : ValidStore lib store) (ha : Agrees runtime heap config path store)
    (hs : Synced heap store runtime) (hpo : previous.traffic.Pointers heap'.next) (ho : previous.storePath ≠ path) :
    SameRuntime (runtime, heap) (buildRuntimeState (some config) path store previous heap') := by
  have hb : Built previous _ heap' store.places (buildRuntimeState (some config) path store previous heap') :=
    buildRuntimeState_built hpo hv.ids
  have hag : Agrees _ _ config path store := agrees_build hv hpo
  refine ⟨?_, fun token => ?_, fun id => ?_, fun key => ?_⟩
  · rw [hag.header, ha.header]
  · apply Option.ext
    intro _
    rw [hag.subscriptions, ha.subscriptions]
  · apply Option.ext
    intro _
    rw [hag.users, ha.users]
  · by_cases hk : ∃ p ∈ store.places, p.key = key
    · obtain ⟨p, hp, rfl⟩ := hk
      obtain ⟨_, ht, of⟩ := hb.counters p hp
      rw [ha.live hs hp, ht, Option.map_some]
      rcases of with hsh | ⟨_, _, _, hc⟩
      · exact absurd (sharedCounter_eq_some.mp hsh).1 ho
      · rw [hc]
    · have none : ∀ (r : RuntimeState) (h : CounterHeap), Agrees r h config path store → r.traffic.lookup key = none := by
        intro r h ha
        cases ht : r.traffic.lookup key with
        | none => rfl
        | some ref => exact absurd (ha.keys key ref ht) hk
      rw [none _ _ hag, none _ _ ha]
      rfl

theorem liveCounter_grown (hp : previous.traffic.Pointers heap.next) (hg : heap.Extends heap') (key : TrafficKey)
    (generation : UInt64) : liveCounter heap' previous key generation = liveCounter heap previous key generation := by
  unfold liveCounter
  cases ht : previous.traffic.lookup key with
  | none => rfl
  | some ref => rw [Option.map_some, Option.map_some, hg.2 ref (hp.allocated _ _ ht)]

theorem Synced.grown (hs : Synced heap store previous) (hpo : previous.traffic.Pointers heap.next) (hg : heap.Extends heap') :
    Synced heap' store previous := by
  rw [synced_iff] at hs ⊢
  intro p hp counter hl
  rw [liveCounter_grown hpo hg] at hl
  exact hs p hp counter hl

theorem synced_build (hv : ValidStore lib store) (hpo : previous.traffic.Pointers heap.next)
    (hs : previous.storePath = path → Synced heap store previous) :
    Synced (buildRuntimeState (some config) path store previous heap).2 store
    (buildRuntimeState (some config) path store previous heap).1 := by
  have hbu : Built previous _ heap store.places (buildRuntimeState (some config) path store previous heap) :=
    buildRuntimeState_built hpo hv.ids
  rw [synced_iff]
  intro p hp counter hl
  obtain ⟨ref, ht, of⟩ := hbu.counters p hp
  obtain ⟨hc, hg⟩ := Option.filter_eq_some_iff.mp hl
  rw [ht, Option.map_some, Option.some.injEq] at hc
  rcases of with hsh | ⟨_, _, _, hf⟩
  · obtain ⟨same, hb, _⟩ := sharedCounter_eq_some.mp hsh
    rw [hbu.grown.2 ref (hpo.allocated _ _ hb)] at hc
    refine synced_iff.mp (hs same) p hp counter ?_
    rw [liveCounter, hb, Option.map_some, hc]
    simpa using hg
  · rw [← hc, hf]
    exact ⟨rfl, rfl⟩

end Agreement

structure Published (lib : Library) (m : Manager) (config : Config) : Prop where
  valid : ValidStore lib m.store
  index : Indexes m.userIndex m.store
  runtime : Agrees m.runtime m.counters config m.storePath m.store
  path : m.storePath = config.storePath
  openStore : m.storePath ≠ ""

def Attached (lib : Library) (m : Manager) : Prop :=
  ∃ disk flag, loadStore lib (m.files m.storePath) = .ok (disk, flag) ∧ disk.withoutTraffic = m.store.withoutTraffic

structure Core (lib : Library) (m : Manager) : Prop where
  nonneg : m.counters.Nonneg
  pointers : m.runtime.traffic.Pointers m.counters.next
  disabled : m.config = none → m.runtime = {}
  unlock : m.storeUnlock = true ↔ m.storePath ≠ ""
  published : ∀ config, m.config = some config → Published lib m config
  attached : m.storePath ≠ "" → Attached lib m

/-- Every managed listener serves the enabled users of its state in the store. -/
def Serving (m : Manager) : Prop :=
  ∀ name ∈ m.managedListeners, ∃ state l, m.store.listeners.lookup name = some state ∧ m.inbounds name = .managed l ∧
    l.current = activeManagedUsers state

def Saved (lib : Library) (m : Manager) : Prop :=
  m.storePath = "" ∨ ∃ flag, loadStore lib (m.files m.storePath) = .ok (syncTrafficStore m.counters m.store m.runtime, flag)

def content (lib : Library) (files : StoreFiles) : Except Failure Store :=
  (loadStore lib files).map fun loaded => { loaded.1.withoutTraffic with generation := 0 }

structure Saves (lib : Library) (start : StoreFiles) (store : Store) (files : StoreFiles) (saved : Store) : Prop where
  loads : ∃ flag, loadStore lib files = .ok (saved, flag)
  written : saved = { store with generation := store.generation + 1 }
  valid : ValidStore lib saved
  committed : ∃ committed flag, loadStore lib start = .ok (committed, flag) ∧ committed.generation = store.generation

namespace Manager

variable {lib : Library} {m : Manager}

theorem persistStore_cases (lib : Library) (write : WriteEnv) (m : Manager) (path : String) (store : Store) :
    (∃ e, m.persistStore lib write path store = (m, .error e)) ∨
      ∃ files saved, m.persistStore lib write path store = ({ m with files := update m.files path files }, .ok saved) ∧
        Saves lib (m.files path) store files saved := by
  simp only [persistStore]
  cases hr : (saveStoreLocked lib write (m.files path) store).2 with
  | error e =>
    left
    refine ⟨e, ?_⟩
    rw [saveStoreLocked_error hr, update_eq_self]
  | ok saved =>
    right
    obtain ⟨recovered, flag, hp, hl⟩ := saveStoreLocked_ok hr
    obtain ⟨committed, hb, hs, hw, _, hv⟩ := planSave_eq_ok hp
    exact ⟨_, saved, rfl, ⟨flag, hl⟩, hw, hv, committed, recovered, hb, hs⟩

theorem persist_cases (lib : Library) (write : WriteEnv) (m : Manager) :
    (∃ e, m.persist lib write = (m, some e)) ∨
      ∃ files saved, m.persist lib write = ({ m with files := update m.files m.storePath files, store := saved }, none) ∧
        Saves lib (m.files m.storePath) m.store files saved := by
  unfold persist
  rcases persistStore_cases lib write m m.storePath m.store with ⟨e, he⟩ | ⟨files, saved, ok, hs⟩
  · left
    rw [he]
    exact ⟨e, rfl⟩
  · right
    rw [ok]
    exact ⟨files, saved, rfl, hs⟩

end Manager

section Core

variable {lib : Library} {m : Manager}

theorem Core.frame (hc : Core lib m) (instances : GoMap String Nat) (dirty flushCancel : Bool) (inbounds : Inbounds) :
    Core lib { m with instances := instances, dirty := dirty, flushCancel := flushCancel, inbounds := inbounds } := by
  refine ⟨hc.nonneg, hc.pointers, hc.disabled, hc.unlock, fun config he => ?_, hc.attached⟩
  have p := hc.published config he
  exact ⟨p.valid, p.index, p.runtime, p.path, p.openStore⟩

theorem Core.files (core : Core lib m) {files : String → StoreFiles}
    (hs : m.storePath ≠ "" → files m.storePath = m.files m.storePath) :
    Core lib { m with files := files } := by
  refine ⟨core.nonneg, core.pointers, core.disabled, core.unlock, fun config he => ?_, fun ho => ?_⟩
  · have p := core.published config he
    exact ⟨p.valid, p.index, p.runtime, p.path, p.openStore⟩
  · obtain ⟨disk, flag, hl, hc⟩ := core.attached ho
    refine ⟨disk, flag, ?_, hc⟩
    show loadStore lib (files m.storePath) = _
    rw [hs ho]
    exact hl

theorem Core.sync (hc : Core lib m) : Core lib m.syncTrafficLocked := by
  refine ⟨hc.nonneg, hc.pointers, hc.disabled, hc.unlock, fun config he => ?_, fun ho => ?_⟩
  · have p := hc.published config he
    exact ⟨p.valid.sync hc.nonneg _, p.index.mapUsers (syncUser_trafficOnly _ _), p.runtime.sync _ _, p.path, p.openStore⟩
  · obtain ⟨disk, flag, hl, hs⟩ := hc.attached ho
    exact ⟨disk, flag, hl, hs.trans (withoutTraffic_syncTrafficStore _ _ _).symm⟩

variable {files : StoreFiles}

theorem Core.saved (hc : Core lib m) {saved : Store} (hs : Saves lib (m.files m.storePath) m.store files saved) :
    Core lib { m with files := update m.files m.storePath files, store := saved } := by
  obtain ⟨flag, hl⟩ := hs.loads
  refine ⟨hc.nonneg, hc.pointers, hc.disabled, hc.unlock, fun config he => ?_, fun _ => ⟨saved, flag, ?_, rfl⟩⟩
  · have p := hc.published config he
    have hw := hs.written
    refine ⟨hs.valid, ?_, ?_, p.path, p.openStore⟩
    · show Indexes m.userIndex saved
      rw [hw]
      exact p.index
    · show Agrees m.runtime m.counters config m.storePath saved
      rw [hw]
      exact p.runtime.generation _
  · simp only [update_self]
    exact hl

theorem Attached.content_saved (ha : Attached lib m) {saved : Store}
    (hs : Saves lib (m.files m.storePath) m.store files saved) (path : String) :
    content lib (Function.update m.files m.storePath files path) = content lib (m.files path) := by
  by_cases same : path = m.storePath
  · obtain ⟨_, _, hl, ha⟩ := ha
    obtain ⟨_, hlo⟩ := hs.loads
    rw [same, update_self, content, content, hl, hlo, hs.written]
    simp only [Except.map]
    rw [ha]
    rfl
  · rw [update_of_ne same]

theorem Manager.persistOpen_cases (m : Manager) (write : WriteEnv) (ha : m.storePath ≠ "" → Attached lib m) :
    (m.storePath ≠ "" ∧ ∃ e, m.persistOpen lib write = (m, some e)) ∨
      ∃ files store, m.persistOpen lib write = ({ m with files := files, store := store }, none) ∧
        (∀ path, content lib (files path) = content lib (m.files path)) ∧ ∀ path, path ≠ m.storePath → files path = m.files path := by
  unfold persistOpen
  split
  next ho =>
    rcases persist_cases lib write m with ⟨e, he⟩ | ⟨files, saved, ok, hs⟩
    · exact .inl ⟨ho, e, he⟩
    · exact .inr ⟨_, saved, ok, (ha ho).content_saved hs, fun path ne => update_of_ne ne _ _⟩
  · exact .inr ⟨m.files, m.store, rfl, fun _ => rfl, fun _ _ => rfl⟩

theorem saved_of_saves {saved : Store} (hs : Synced m.counters m.store m.runtime)
    (hsa : Saves lib (m.files m.storePath) m.store files saved) :
    Saved lib { m with files := update m.files m.storePath files, store := saved } := by
  obtain ⟨flag, hl⟩ := hsa.loads
  refine .inr ⟨flag, ?_⟩
  have ha : syncTrafficStore m.counters saved m.runtime = saved := by
    rw [hsa.written]
    show { syncTrafficStore m.counters m.store m.runtime with generation := m.store.generation + 1 } = _
    rw [show syncTrafficStore m.counters m.store m.runtime = m.store from hs]
  simp only [update_self]
  rw [ha]
  exact hl

theorem core_built {config : Config} {previous : RuntimeState} {heap : CounterHeap} (he : m.config = some config)
    (hb : (m.runtime, m.counters) = buildRuntimeState (some config) m.storePath m.store previous heap)
    (hn : heap.Nonneg) (hpo : previous.traffic.Pointers heap.next)
    (hs : previous.storePath = m.storePath → Synced heap m.store previous) (hu : m.storeUnlock = true ↔ m.storePath ≠ "")
    (hv : ValidStore lib m.store) (hi : Indexes m.userIndex m.store) (path : m.storePath = config.storePath)
    (ho : m.storePath ≠ "") (hl : ∃ flag, loadStore lib (m.files m.storePath) = .ok (m.store, flag)) :
    Core lib m ∧ Saved lib m := by
  have hr : m.runtime = (buildRuntimeState (some config) m.storePath m.store previous heap).1 := congrArg Prod.fst hb
  have hc : m.counters = (buildRuntimeState (some config) m.storePath m.store previous heap).2 := congrArg Prod.snd hb
  have spec : Built previous _ heap m.store.places (buildRuntimeState (some config) m.storePath m.store previous heap) :=
    buildRuntimeState_built hpo hv.ids
  obtain ⟨flag, hl⟩ := hl
  refine ⟨⟨?_, ?_, ?_, hu, ?_, fun _ => ⟨m.store, flag, hl, rfl⟩⟩, .inr ⟨flag, ?_⟩⟩
  · rw [hc]
    exact spec.nonneg hn fun p hp => hv.bytes hp
  · rw [hr, hc]
    exact spec.pointers
  · intro none
    rw [none] at he
    cases he
  · intro _ he'
    rw [he] at he'
    cases he'
    refine ⟨hv, hi, ?_, path, ho⟩
    rw [hr, hc]
    exact agrees_build hv hpo
  · rw [hr, hc, show syncTrafficStore _ m.store _ = m.store from synced_build hv hpo hs]
    exact hl

theorem core_publish {config : Config} (he : m.config = some config) (hn : m.counters.Nonneg)
    (hp : m.runtime.traffic.Pointers m.counters.next) (hs : Synced m.counters m.store m.runtime)
    (hu : m.storeUnlock = true ↔ m.storePath ≠ "") (hv : ValidStore lib m.store) (hi : Indexes m.userIndex m.store)
    (path : m.storePath = config.storePath) (ho : m.storePath ≠ "")
    (hl : ∃ flag, loadStore lib (m.files m.storePath) = .ok (m.store, flag)) :
    (∃ runtime counters, m.publishLocked = { m with runtime := runtime, counters := counters }) ∧
      Core lib m.publishLocked ∧ Saved lib m.publishLocked := by
  have hr : syncTrafficStore (buildRuntimeState (some config) m.storePath m.store m.runtime m.counters).2 m.store m.runtime = m.store :=
    hs.grown hp (buildRuntimeState_grown hp hv.ids)
  generalize hbe : buildRuntimeState (some config) m.storePath m.store m.runtime m.counters = built at hr
  have hf : m.publishLocked = { m with runtime := built.1, counters := built.2 } := by
    simp only [Manager.publishLocked, Manager.rebuiltRuntime, Manager.swapRuntime, Manager.swapRuntimeLocked, he, hbe, hr]
  refine ⟨⟨built.1, built.2, hf⟩, ?_⟩
  rw [hf]
  exact core_built he hbe.symm hn hp (fun _ => hs) hu hv hi path ho hl

end Core

end AsterCore.Aster
