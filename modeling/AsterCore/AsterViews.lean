import AsterCore.AsterRuntime

namespace AsterCore.Aster

open List GoMap Store Function

section Places

variable {store : Store}

variable {p : Place} {inbound : String} {index : GoMap String UserLocation}

theorem mem_places :
    p ∈ store.places ↔ store.listeners.lookup p.inbound = some p.state ∧ p.state.users[p.position]? = some p.user := by
  unfold places
  rw [mem_flatMap]
  constructor
  · rintro ⟨e, he, hp⟩
    obtain ⟨u, hu, rfl⟩ := mem_map.mp hp
    exact ⟨mem_entries_iff.mp he, mem_zipIdx_iff_getElem?.mp hu⟩
  · rintro ⟨there, here⟩
    refine ⟨⟨p.inbound, p.state⟩, mem_entries_iff.mpr there, ?_⟩
    exact mem_map.mpr ⟨(p.user, p.position), mem_zipIdx_iff_getElem?.mpr here, rfl⟩

theorem map_users_places (store : Store) : store.places.map Place.user = store.users := by
  unfold places users usersOf
  rw [map_flatMap]
  congr 1
  funext e
  rw [map_map]
  exact zipIdx_map_fst 0 e.2.users

theorem map_ids_places (store : Store) : store.places.map (fun p => p.user.id) = store.users.map User.id := by
  rw [← map_users_places, map_map]
  rfl

/-- A user ID has one place. -/
theorem places_unique (ids : (store.users.map User.id).Nodup) {q : Place} (hp : p ∈ store.places) (hq : q ∈ store.places)
    (hs : p.user.id = q.user.id) : p = q := by
  rw [← map_ids_places] at ids
  exact inj_on_of_nodup_map ids hp hq hs

theorem places_of_mem {state : ListenerState} {user : User}
    (there : store.listeners.lookup inbound = some state) (mem : user ∈ state.users) :
    ∃ position, (⟨inbound, state, position, user⟩ : Place) ∈ store.places := by
  obtain ⟨position, here⟩ := mem_iff_getElem?.mp mem
  exact ⟨position, mem_places.mpr ⟨there, here⟩⟩

/-- The index has the places of the users. -/
def Indexes (index : GoMap String UserLocation) (store : Store) : Prop :=
  ∀ id location, index.lookup id = some location ↔
    ∃ p ∈ store.places, p.user.id = id ∧ location = ⟨p.inbound, p.position⟩

theorem buildUserIndex_indexes (ids : (store.users.map User.id).Nodup) : Indexes (buildUserIndex store) store := by
  rw [← map_ids_places] at ids
  intro id _
  unfold buildUserIndex
  constructor
  · intro there
    by_cases known : id ∈ store.places.map (fun p => p.user.id)
    · obtain ⟨p, hp, rfl⟩ := mem_map.mp known
      rw [lookup_foldl_insert ids hp] at there
      exact ⟨p, hp, rfl, (Option.some.inj there).symm⟩
    · rw [lookup_foldl_insert_notMem known] at there
      cases there
  · rintro ⟨p, hp, rfl, rfl⟩
    exact lookup_foldl_insert ids hp

theorem Indexes.lookup_eq {index' : GoMap String UserLocation} (h : Indexes index store) (h' : Indexes index' store)
    (id : String) : index.lookup id = index'.lookup id := by
  apply Option.ext
  intro _
  rw [h, h']

/-- The linear search finds the place of a user. -/
theorem findUser_eq_some (ids : (store.users.map User.id).Nodup) (hp : p ∈ store.places) :
    findUser store p.user.id = some (p.inbound, p.state, p.user) := by
  unfold findUser
  obtain ⟨ht, hh⟩ := mem_places.mp hp
  cases hf : store.listeners.entries.findSome? fun e => (findUserInListener e.2 p.user.id).map fun user => (e.1, e.2, user) with
  | none =>
    have no := findSome?_eq_none_iff.mp hf ⟨p.inbound, p.state⟩ (mem_entries_iff.mpr ht)
    rw [Option.map_eq_none_iff, findUserInListener, find?_eq_none] at no
    exact absurd (decide_eq_true rfl) (no p.user (mem_of_getElem? hh))
  | some =>
    obtain ⟨e, he, hit⟩ := exists_of_findSome?_eq_some hf
    obtain ⟨user, hu, rfl⟩ := Option.map_eq_some_iff.mp hit
    have id : user.id = p.user.id := by simpa using find?_some hu
    obtain ⟨_, hq⟩ := places_of_mem (mem_entries_iff.mp he) (mem_of_find?_eq_some hu)
    have hs := places_unique ids hq hp id
    rw [← hs]

theorem findUser_eq_none {id : String} (absent : ∀ p ∈ store.places, p.user.id ≠ id) : findUser store id = none := by
  unfold findUser
  rw [findSome?_eq_none_iff]
  intro e he
  rw [Option.map_eq_none_iff, findUserInListener, find?_eq_none]
  intro _ hu
  obtain ⟨_, hp⟩ := places_of_mem (mem_entries_iff.mp he) hu
  simpa using absent _ hp

/-- The indexed lookup agrees with the linear search. -/
theorem indexedUser_eq_findUser (ids : (store.users.map User.id).Nodup)
    (h : Indexes index store) (id : String) : indexedUser index store id = findUser store id := by
  unfold indexedUser
  cases known : index.lookup id with
  | none =>
    refine (findUser_eq_none fun p hp same => ?_).symm
    rw [(h id _).mpr ⟨p, hp, same, rfl⟩] at known
    cases known
  | some location =>
    obtain ⟨p, hp, rfl, rfl⟩ := (h id location).mp known
    obtain ⟨there, here⟩ := mem_places.mp hp
    simp only [there, here]
    rw [if_neg (not_not.mpr rfl), findUser_eq_some ids hp]

theorem listener_ids_nodup (ids : (store.users.map User.id).Nodup) {state : ListenerState}
    (there : store.listeners.lookup inbound = some state) : (state.users.map User.id).Nodup := by
  rw [users, usersOf, map_flatMap] at ids
  exact (nodup_flatMap.mp ids).1 ⟨inbound, state⟩ (mem_entries_iff.mpr there)

/-- Replacing one listener takes reindexing this listener only. -/
theorem reindexListener_indexes {store' : Store} {previous current : ListenerState}
    (h : Indexes index store) (ids : (store.users.map User.id).Nodup) (ids' : (store'.users.map User.id).Nodup)
    (before : store.listeners.lookup inbound = some previous)
    (after : store'.listeners = store.listeners.insert inbound current) (name : current.name = inbound) :
    Indexes (reindexListener index previous current) store' := by
  have now : store'.listeners.lookup inbound = some current := by rw [after, lookup_insert_eq, if_pos rfl]
  have own := listener_ids_nodup ids' now
  have others : ∀ p : Place, p.inbound ≠ inbound → (p ∈ store'.places ↔ p ∈ store.places) := by
    intro p ne
    rw [mem_places, mem_places, after, lookup_insert_eq, if_neg ne]
  have keys : (current.users.zipIdx.map fun p => p.1.id) = current.users.map User.id := by
    rw [← zipIdx_map_fst 0 current.users, map_map, zipIdx_map_fst]
    rfl
  intro id _
  unfold reindexListener
  by_cases mine : id ∈ current.users.map User.id
  · -- the user is in the new listener
    rw [← keys] at mine own
    obtain ⟨⟨user, position⟩, hu, rfl⟩ := mem_map.mp mine
    have here := mem_zipIdx_iff_getElem?.mp hu
    have hp : (⟨inbound, current, position, user⟩ : Place) ∈ store'.places := mem_places.mpr ⟨now, here⟩
    rw [lookup_foldl_insert own hu, name]
    constructor
    · intro there
      exact ⟨_, hp, rfl, (Option.some.inj there).symm⟩
    · rintro ⟨q, hq, same, rfl⟩
      rw [places_unique ids' hq hp same]
  · rw [← keys] at mine
    rw [lookup_foldl_insert_notMem mine, lookup_eraseKeys_eq]
    rw [keys] at mine
    split
    next gone =>
      refine ⟨nofun, ?_⟩
      rintro ⟨q, hq, rfl, _⟩
      obtain ⟨_, hu, same⟩ := mem_map.mp gone
      by_cases here : q.inbound = inbound
      · obtain ⟨there, listed⟩ := mem_places.mp hq
        rw [here, now] at there
        have state := Option.some.inj there
        exact absurd (mem_map_of_mem (mem_of_getElem? (state ▸ listed))) mine
      · obtain ⟨_, hp⟩ := places_of_mem before hu
        have eq := places_unique ids ((others q here).mp hq) hp same.symm
        exact absurd (congrArg Place.inbound eq) here
    next kept =>
      rw [h]
      constructor
      · rintro ⟨p, hp, rfl, rfl⟩
        by_cases here : p.inbound = inbound
        · obtain ⟨there, listed⟩ := mem_places.mp hp
          rw [here, before] at there
          have state := Option.some.inj there
          exact absurd (mem_map_of_mem (mem_of_getElem? (state ▸ listed))) kept
        · exact ⟨p, (others p here).mpr hp, rfl, rfl⟩
      · rintro ⟨p, hp, rfl, rfl⟩
        by_cases here : p.inbound = inbound
        · obtain ⟨there, listed⟩ := mem_places.mp hp
          rw [here, now] at there
          have state := Option.some.inj there
          exact absurd (mem_map_of_mem (mem_of_getElem? (state ▸ listed))) mine
        · exact ⟨p, (others p here).mp hp, rfl, rfl⟩

/-- The same place in a store whose users are changed. -/
def Place.map (f : String → User → User) (p : Place) : Place :=
  ⟨p.inbound, p.state.mapUsers (f p.inbound), p.position, f p.inbound p.user⟩

theorem places_mapUsers (f : String → User → User) (store : Store) :
    (store.mapUsers f).places = store.places.map (Place.map f) := by
  unfold places mapUsers mapValues
  simp only [flatMap_map, map_flatMap]
  congr 1
  simp only [ListenerState.mapUsers, zipIdx_map, map_map]
  rfl

theorem Indexes.mapUsers {f : String → User → User} (h : Indexes index store) (only : TrafficOnly f) :
    Indexes index (store.mapUsers f) := by
  intro _ _
  rw [h, places_mapUsers]
  constructor
  · rintro ⟨p, hp, rfl, rfl⟩
    exact ⟨_, mem_map_of_mem hp, only.id p.inbound p.user, rfl⟩
  · rintro ⟨p, hp, rfl, rfl⟩
    obtain ⟨q, hq, rfl⟩ := mem_map.mp hp
    exact ⟨q, hq, (only.id q.inbound q.user).symm, rfl⟩

end Places

section Subscriptions

variable {lib : Library} {store : Store}

variable {token : String}

theorem validSubscriptionToken_ne (hv : validSubscriptionToken token = true) : token ≠ "" := by
  rintro rfl
  revert hv
  decide

/-- A user of a valid store owns its token. -/
theorem ValidStore.lookup_token (hv : ValidStore lib store) {id : String} (ht : store.subscriptions.lookup id = some token) :
    ∃ user ∈ store.users, user.id = id ∧ Store.token store.subscriptions user = token ∧ token ≠ "" := by
  obtain ⟨user, hu, hs⟩ := mem_map.mp (hv.owned ⟨id, token⟩ (mem_entries_iff.mpr ht))
  have own : Store.token store.subscriptions user = token := by
    rw [Store.token, hs, ht]
    rfl
  refine ⟨user, hu, hs, own, ?_⟩
  obtain ⟨e, he, mem⟩ := mem_flatMap.mp hu
  rw [← own]
  exact validSubscriptionToken_ne ((hv.listeners e he).users user mem).token

/-- The token map of a runtime is the inverse of the subscriptions. -/
theorem lookup_invertSubscriptions (hv : ValidStore lib store) {id : String} :
    (invertSubscriptions store.subscriptions).lookup token = some id ↔ store.subscriptions.lookup id = some token := by
  have tokens : (store.subscriptions.entries.map fun e => e.2).Nodup := by
    refine List.Nodup.map_on ?_ store.subscriptions.nodupKeys.nodup
    intro e he e' he' hs
    obtain ⟨k, v⟩ := e
    obtain ⟨_, _⟩ := e'
    obtain ⟨_, hu, rfl, own, _⟩ := hv.lookup_token (mem_entries_iff.mp he)
    obtain ⟨_, hu', rfl, own', _⟩ := hv.lookup_token (mem_entries_iff.mp he')
    have one := inj_on_of_nodup_map hv.tokens hu hu' (own.trans (hs.trans own'.symm))
    simp only at hs
    rw [one, hs]
  have hl : invertSubscriptions store.subscriptions =
      store.subscriptions.entries.foldl (fun tokens e => tokens.insert e.2 e.1) ∅ := by
    apply foldl_ext
    intro _ e he
    obtain ⟨_, _, _, _, ne⟩ := hv.lookup_token (mem_entries_iff.mp he)
    exact if_pos ne
  rw [hl]
  constructor
  · intro ht
    by_cases hk : token ∈ store.subscriptions.entries.map fun e => e.2
    · obtain ⟨e, he, rfl⟩ := mem_map.mp hk
      rw [lookup_foldl_insert tokens he] at ht
      cases ht
      exact mem_entries_iff.mp he
    · rw [lookup_foldl_insert_notMem hk] at ht
      cases ht
  · intro ht
    exact lookup_foldl_insert tokens (mem_entries_iff.mpr ht)

end Subscriptions

section Build

def RuntimeUser.withoutTraffic (ru : RuntimeUser) : Int64 × User := (ru.revision, ru.user.withoutTraffic)

/-- Where the counter of a place comes from: it is shared with the previous runtime, or it is new and starts from the store. -/
def CounterOf (previous : RuntimeState) (path : String) (start heap : CounterHeap) (p : Place) (ref : Nat) : Prop :=
  sharedCounter start previous path p = some ref ∨
    sharedCounter start previous path p = none ∧ start.next ≤ ref ∧ ref < heap.next ∧
      heap.cell ref = ⟨p.user.trafficGeneration, p.user.uploadBytes, p.user.downloadBytes⟩

/-- The heap has grown by new counters. -/
def CounterHeap.Extends (start heap : CounterHeap) : Prop :=
  start.next ≤ heap.next ∧ ∀ ref, ref < start.next → heap.cell ref = start.cell ref

/-- A runtime after some rounds of the loops of `buildRuntimeState`. -/
structure Built (previous : RuntimeState) (header : RuntimeState) (start : CounterHeap) (places : List Place)
    (built : RuntimeState × CounterHeap) : Prop where
  frame : built.1 = { header with traffic := built.1.traffic, users := built.1.users }
  grown : start.Extends built.2
  pointers : built.1.traffic.Pointers built.2.next
  nonneg : start.Nonneg → (∀ p ∈ places, 0 ≤ p.user.uploadBytes.toInt ∧ 0 ≤ p.user.downloadBytes.toInt) → built.2.Nonneg
  counters : ∀ p ∈ places, ∃ ref, built.1.traffic.lookup p.key = some ref ∧ CounterOf previous header.storePath start built.2 p ref
  keys : ∀ key ref, built.1.traffic.lookup key = some ref → ∃ p ∈ places, p.key = key
  users : ∀ id entry, (built.1.users.lookup id).map RuntimeUser.withoutTraffic = some entry ↔
    ∃ p ∈ places, p.inbound ∈ header.managed ∧ p.user.id = id ∧ entry = (p.state.revision, p.user.withoutTraffic)

variable {previous header : RuntimeState} {start : CounterHeap}

variable {heap : CounterHeap} {path : String} {ref : Nat}

variable {p : Place}

theorem sharedCounter_eq_some :
    sharedCounter heap previous path p = some ref ↔
      previous.storePath = path ∧ previous.traffic.lookup p.key = some ref ∧
    (heap.cell ref).generation = p.user.trafficGeneration := by
  unfold sharedCounter
  split
  next hs => simp [hs]
  next ho => simp [ho]

theorem sharedCounter_grown (hp : previous.traffic.Pointers start.next) (hgr : start.Extends heap)
    (path : String) (p : Place) : sharedCounter heap previous path p = sharedCounter start previous path p := by
  apply Option.ext
  intro ref
  rw [sharedCounter_eq_some, sharedCounter_eq_some]
  constructor
  · rintro ⟨hs, ht, hg⟩
    rw [hgr.2 ref (hp.allocated _ _ ht)] at hg
    exact ⟨hs, ht, hg⟩
  · rintro ⟨hs, ht, hg⟩
    rw [← hgr.2 ref (hp.allocated _ _ ht)] at hg
    exact ⟨hs, ht, hg⟩

theorem CounterHeap.alloc_extends (heap : CounterHeap) (counter : TrafficCounter) : heap.Extends (heap.alloc counter) :=
  ⟨Nat.le_succ _, fun _ lt => update_of_ne (Nat.ne_of_lt lt) _ _⟩

theorem CounterHeap.Extends.trans {a b c : CounterHeap} (h : a.Extends b) (h' : b.Extends c) : a.Extends c :=
  ⟨h.1.trans h'.1, fun ref lt => (h'.2 ref (lt_of_lt_of_le lt h.1)).trans (h.2 ref lt)⟩

/-- The counter that is picked is the counter of the place, and its generation is the user's. -/
theorem pickCounter_spec (hp : previous.traffic.Pointers start.next) (hg : start.Extends heap) (path : String) (p : Place) :
    heap.Extends (pickCounter heap previous path p).2 ∧
      CounterOf previous path start (pickCounter heap previous path p).2 p (pickCounter heap previous path p).1 := by
  have same := sharedCounter_grown hp hg path p
  unfold pickCounter
  cases hs : sharedCounter heap previous path p with
  | some => exact ⟨⟨le_refl _, fun _ _ => rfl⟩, .inl (same ▸ hs)⟩
  | none =>
    refine ⟨heap.alloc_extends _, .inr ⟨same ▸ hs, hg.1, Nat.lt_succ_self _, ?_⟩⟩
    exact update_self _ _ _

/-- Under a new key, the counter that is picked is nobody else's. -/
theorem pickCounter_pointers {traffic : GoMap TrafficKey Nat}
    (hp : previous.traffic.Pointers start.next) (hg : start.Extends heap) (own : traffic.Pointers heap.next)
    (hc : ∀ key ref, traffic.lookup key = some ref → previous.traffic.lookup key = some ref ∨ start.next ≤ ref)
    (ha : traffic.lookup p.key = none) :
    GoMap.Pointers (traffic.insert p.key (pickCounter heap previous path p).1) (pickCounter heap previous path p).2.next := by
  unfold pickCounter
  cases hs : sharedCounter heap previous path p with
  | none => exact own.insertFresh p.key
  | some ref =>
    have ht := (sharedCounter_eq_some.mp hs).2.1
    have old := hp.allocated _ _ ht
    have hal : ∀ key, traffic.lookup key ≠ some ref := by
      intro key hk
      rcases hc key ref hk with hb | fresh
      · rw [hp.distinct _ _ _ hb ht, ha] at hk
        cases hk
      · omega
    constructor
    · intro key ref' hk
      rw [lookup_insert_eq] at hk
      split at hk
      · cases hk
        exact lt_of_lt_of_le old hg.1
      · exact own.allocated key ref' hk
    · intro key other ref' hk hk'
      rw [lookup_insert_eq] at hk hk'
      split at hk <;> split at hk'
      next a b => rw [a, b]
      · cases hk
        exact absurd hk' (hal other)
      · cases hk'
        exact absurd hk (hal key)
      · exact own.distinct key other ref' hk hk'

theorem pickCounter_nonneg (hn : heap.Nonneg)
    (hb : 0 ≤ p.user.uploadBytes.toInt ∧ 0 ≤ p.user.downloadBytes.toInt) : (pickCounter heap previous path p).2.Nonneg := by
  unfold pickCounter
  split
  · exact hn
  · intro ref
    by_cases hs : ref = heap.next
    · simp only [hs, CounterHeap.alloc, update_self]
      exact hb
    · simp only [CounterHeap.alloc, update_of_ne hs]
      exact hn ref

theorem CounterOf.grow {heap' : CounterHeap}
    (h : CounterOf previous path start heap p ref) (hg : heap.Extends heap') : CounterOf previous path start heap' p ref := by
  rcases h with hs | ⟨hn, hf, lt, hc⟩
  · exact .inl hs
  · exact .inr ⟨hn, hf, lt_of_lt_of_le lt hg.1, (hg.2 ref lt).trans hc⟩

theorem withoutTraffic_copied (user : User) (counter : TrafficCounter) (c : Prop) [Decidable c] :
    (if c then user.withTraffic counter else user).withoutTraffic = user.withoutTraffic := by
  split <;> rfl

section

variable (pointers : previous.traffic.Pointers start.next)

include pointers

theorem addRuntimeUser_built {places : List Place} {built : RuntimeState × CounterHeap}
    (h : Built previous header start places built) (hf : p.user.id ∉ places.map fun q => q.user.id) :
    Built previous header start (places ++ [p]) (addRuntimeUser previous built p) := by
  have path : built.1.storePath = header.storePath := by rw [h.frame]
  have hm : built.1.managed = header.managed := by rw [h.frame]
  obtain ⟨grown, hc⟩ := pickCounter_spec pointers h.grown built.1.storePath p
  have traffic : (addRuntimeUser previous built p).1.traffic =
      built.1.traffic.insert p.key (pickCounter built.2 previous built.1.storePath p).1 := by
    simp only [addRuntimeUser]
    split <;> rfl
  have heap : (addRuntimeUser previous built p).2 = (pickCounter built.2 previous built.1.storePath p).2 := by
    simp only [addRuntimeUser]
    split <;> rfl
  have hnk : ∀ q ∈ places, q.key ≠ p.key := by
    intro q hq same
    exact hf (mem_map.mpr ⟨q, hq, congrArg TrafficKey.userID same⟩)
  rw [path] at hc
  constructor
  · simp only [addRuntimeUser]
    split
    · rw [h.frame]
    · rw [h.frame]
  · rw [heap]
    exact h.grown.trans grown
  · rw [traffic, heap]
    refine pickCounter_pointers pointers h.grown h.pointers (fun key ref ht => ?_) ?_
    · obtain ⟨q, hq, rfl⟩ := h.keys key ref ht
      obtain ⟨_, ht', of⟩ := h.counters q hq
      rw [ht] at ht'
      cases ht'
      rcases of with hs | ⟨_, hf, _⟩
      · exact .inl (sharedCounter_eq_some.mp hs).2.1
      · exact .inr hf
    · cases hk : built.1.traffic.lookup p.key with
      | none => rfl
      | some ref =>
        obtain ⟨q, hq, same⟩ := h.keys p.key ref hk
        exact absurd same (hnk q hq)
  · rw [heap]
    intro hn hb
    refine pickCounter_nonneg (h.nonneg hn fun q hq => hb q (mem_append_left _ hq)) ?_
    exact hb p (mem_append_right _ (mem_singleton.mpr rfl))
  · rw [traffic, heap]
    intro q hq
    rw [path] at grown ⊢
    rcases mem_append.mp hq with hq | hq
    · obtain ⟨ref, ht, of⟩ := h.counters q hq
      exact ⟨ref, by rw [lookup_insert_eq, if_neg (hnk q hq), ht], of.grow grown⟩
    · rw [mem_singleton.mp hq]
      exact ⟨_, by rw [lookup_insert_eq, if_pos rfl], hc⟩
  · rw [traffic]
    intro key ref ht
    rw [lookup_insert_eq] at ht
    split at ht
    next same => exact ⟨p, mem_append_right _ (mem_singleton.mpr rfl), same.symm⟩
    · obtain ⟨q, hq, same⟩ := h.keys key ref ht
      exact ⟨q, mem_append_left _ hq, same⟩
  · intro id entry
    have here : (∃ q ∈ places ++ [p], q.inbound ∈ header.managed ∧ q.user.id = id ∧ entry = (q.state.revision, q.user.withoutTraffic)) ↔
        (∃ q ∈ places, q.inbound ∈ header.managed ∧ q.user.id = id ∧ entry = (q.state.revision, q.user.withoutTraffic)) ∨
          p.inbound ∈ header.managed ∧ p.user.id = id ∧ entry = (p.state.revision, p.user.withoutTraffic) := by
      simp only [mem_append, mem_singleton, or_and_right, exists_or, exists_eq_left]
    rw [here, ← h.users]
    simp only [addRuntimeUser, hm]
    split
    next him =>
      simp only [lookup_insert_eq]
      by_cases same : id = p.user.id
      · have none : built.1.users.lookup id = none := by
          cases hk : built.1.users.lookup id with
          | none => rfl
          | some ru =>
            obtain ⟨q, hq, _, qid, _⟩ := (h.users id ru.withoutTraffic).mp (by rw [hk]; rfl)
            exact absurd (mem_map.mpr ⟨q, hq, qid.trans same⟩) hf
        rw [if_pos same, none]
        simp only [Option.map_some, Option.some.injEq, RuntimeUser.withoutTraffic, withoutTraffic_copied]
        constructor
        · intro eq
          exact .inr ⟨him, same.symm, eq.symm⟩
        · rintro (no | ⟨_, _, eq⟩)
          · cases no
          · exact eq.symm
      · rw [if_neg same]
        exact ⟨.inl, fun he => he.elim (fun old => old) fun new => absurd new.2.1.symm same⟩
    next hu => exact ⟨.inl, fun he => he.elim (fun old => old) fun new => absurd new.1 hu⟩

theorem foldl_addRuntimeUser_built {places done : List Place} {built : RuntimeState × CounterHeap}
    (h : Built previous header start done built) (ids : ((done ++ places).map fun p => p.user.id).Nodup) :
    Built previous header start (done ++ places) (places.foldl (addRuntimeUser previous) built) := by
  induction places generalizing done built with
  | nil =>
    rw [append_nil]
    exact h
  | cons p _ ih =>
    have hf : p.user.id ∉ done.map fun q => q.user.id := by
      rw [map_append] at ids
      exact fun mem => (nodup_append.mp ids).2.2 _ mem _ mem_cons_self rfl
    rw [append_cons] at ids ⊢
    exact ih (addRuntimeUser_built pointers h hf) ids

/-- What `buildRuntimeState` makes of a configuration and a store. -/
theorem buildRuntimeState_built {config : Config} {store : Store} (ids : (store.users.map User.id).Nodup) :
    Built previous
      { storePath := path, secret := config.secret, publicBaseURL := config.publicBaseURL, managed := config.managedListeners,
        subscriptions := invertSubscriptions store.subscriptions }
      start store.places (buildRuntimeState (some config) path store previous start) := by
  have all : (([] ++ store.places).map fun p : Place => p.user.id).Nodup := by
    rw [nil_append, map_ids_places]
    exact ids
  have hf : Built previous
      { storePath := path, secret := config.secret, publicBaseURL := config.publicBaseURL, managed := config.managedListeners }
      start [] ({ storePath := path, secret := config.secret, publicBaseURL := config.publicBaseURL, managed := config.managedListeners }, start) := by
    refine ⟨rfl, ⟨le_refl _, fun _ _ => rfl⟩, GoMap.Pointers.empty _, fun hn _ => hn, nofun, fun key ref ht => ?_,
      fun id entry => ?_⟩
    · cases ht
    · exact ⟨nofun, fun ⟨p, hp, _⟩ => (by cases hp)⟩
  have hl := foldl_addRuntimeUser_built pointers hf all
  unfold buildRuntimeState
  refine ⟨?_, hl.grown, hl.pointers, hl.nonneg, hl.counters, hl.keys, hl.users⟩
  simp only
  rw [hl.frame]

theorem buildRuntimeState_grown {config : Config} {store : Store}
    (ids : (store.users.map User.id).Nodup) : start.Extends (buildRuntimeState (some config) path store previous start).2 :=
  (buildRuntimeState_built pointers ids).grown

end

variable {places : List Place} {built : RuntimeState × CounterHeap}

/-- Every counter of the runtime has the generation of its user. -/
theorem Built.generation (h : Built previous header start places built) (hpo : previous.traffic.Pointers start.next)
    (hp : p ∈ places) (ht : built.1.traffic.lookup p.key = some ref) :
    (built.2.cell ref).generation = p.user.trafficGeneration := by
  obtain ⟨_, ht', of⟩ := h.counters p hp
  rw [ht] at ht'
  cases ht'
  rcases of with hs | ⟨_, _, _, hc⟩
  · obtain ⟨_, old, hg⟩ := sharedCounter_eq_some.mp hs
    rw [h.grown.2 _ (hpo.allocated _ _ old), hg]
  · rw [hc]

end Build

end AsterCore.Aster
