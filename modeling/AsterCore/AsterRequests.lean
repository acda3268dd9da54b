import AsterCore.AsterUndo

namespace AsterCore.Aster

open List GoMap Mutation Function ListenerState

theorem nextRevision_lt {now previous : Int64} (hp : 0 < previous) (hv : 0 < nextRevision now previous) :
    previous < nextRevision now previous := by
  unfold nextRevision at hv ⊢
  rw [Int64.lt_iff_toInt_lt] at hp
  have zero : (0 : Int64).toInt = 0 := rfl
  have one : (1 : Int64).toInt = 1 := rfl
  have bound := previous.toInt_lt
  split at hv
  next old =>
    -- at the largest revision the sum is negative, and no store with it is valid
    rw [if_pos old]
    rw [Int64.lt_iff_toInt_lt, Int64.toInt_add] at hv ⊢
    by_cases max : previous.toInt = 2 ^ 63 - 1
    · rw [max] at hv
      exact absurd hv (by decide)
    · rw [Int.bmod_eq_of_le (by omega) (by omega)]
      omega
  next new =>
    rw [if_neg new]
    rw [Int64.le_iff_toInt_le] at new
    rw [Int64.lt_iff_toInt_lt]
    omega

theorem ValidStore.revision_pos {lib : Library} {store : Store} {inbound : String} {state : ListenerState}
    (hv : ValidStore lib store)
    (ht : store.listeners.lookup inbound = some state) : 0 < state.revision := by
  have hf := (hv.listeners _ (mem_entries_iff.mpr ht)).fields
  have ha : ¬ state.revision ≤ 0 := fun le => hf (.inr (.inr (.inr (.inl le))))
  rw [Int64.le_iff_toInt_le] at ha
  rw [Int64.lt_iff_toInt_lt]
  omega

theorem mem_replaceUser {userID : String} {f : User → User} {users : List User} {user : User}
    (mem : user ∈ replaceUser userID f users) :
    user ∈ users ∨ ∃ old ∈ users, user = f old := by
  induction users with
  | nil => cases mem
  | cons first _ ih =>
    unfold replaceUser at mem
    split at mem
    · rcases mem_cons.mp mem with rfl | mem
      · exact .inr ⟨first, mem_cons_self, rfl⟩
      · exact .inl (mem_cons_of_mem _ mem)
    · rcases mem_cons.mp mem with rfl | mem
      · exact .inl mem_cons_self
      · rcases ih mem with old | ⟨old, ho, rfl⟩
        · exact .inl (mem_cons_of_mem _ old)
        · exact .inr ⟨old, mem_cons_of_mem _ ho, rfl⟩

def SameTraffic (old new : User) : Prop :=
  new.trafficGeneration = old.trafficGeneration → new.uploadBytes = old.uploadBytes ∧ new.downloadBytes = old.downloadBytes

section Apply

variable {subscriptions subscriptions' : GoMap String String} {current mutated : ListenerState} {old new : User}

theorem changeUser_traffic {userID : String} {f : User → User}
    (h : changeUser subscriptions current userID f = .ok (subscriptions', mutated))
    (hno : (current.users.map User.id).Nodup) (hs : ∀ user, (f user).id = user.id ∧ SameTraffic user (f user))
    (ho : old ∈ current.users) (hn : new ∈ mutated.users) (id : new.id = old.id) : SameTraffic old new := by
  unfold changeUser at h
  split at h <;> cases h
  rcases mem_replaceUser hn with hk | ⟨changed, hc, rfl⟩
  · rw [inj_on_of_nodup_map hno hk ho id]
    exact fun _ => ⟨rfl, rfl⟩
  · rw [(hs changed).1] at id
    rw [← inj_on_of_nodup_map hno hc ho id]
    exact (hs changed).2

theorem Mutation.apply_traffic {mutation : Mutation} (h : mutation.apply subscriptions current = .ok (subscriptions', mutated))
    (hno : (current.users.map User.id).Nodup) (hn' : (mutated.users.map User.id).Nodup)
    (ho : old ∈ current.users) (hn : new ∈ mutated.users) (id : new.id = old.id) : SameTraffic old new := by
  have hu : new ∈ current.users → SameTraffic old new := by
    intro mem
    rw [inj_on_of_nodup_map hno mem ho id]
    exact fun _ => ⟨rfl, rfl⟩
  cases mutation with
  | create =>
    simp only [apply] at h
    split at h
    · cases h
    · split at h
      · cases h
      next user _ =>
        split at h <;> cases h
        rcases mem_append.mp hn with hk | hc
        · exact hu hk
        · -- the ID of a new user is not among those of the others
          rw [map_append] at hn'
          have ha := (nodup_append.mp hn').2.2 old.id (mem_map_of_mem ho) new.id
          rw [mem_singleton.mp hc] at ha id
          exact absurd id.symm (ha (mem_map_of_mem (mem_singleton.mpr rfl)))
  | update =>
    exact changeUser_traffic h hno (fun user => ⟨rfl, fun _ => ⟨rfl, rfl⟩⟩) ho hn id
  | delete =>
    simp only [apply] at h
    split at h <;> cases h
    exact hu (mem_of_mem_eraseP hn)
  | reset =>
    refine changeUser_traffic h hno (fun user => ⟨rfl, fun hs => ?_⟩) ho hn id
    have one : user.trafficGeneration + 1 ≠ user.trafficGeneration := by
      intro eq
      have nat := congrArg UInt64.toNat eq
      rw [UInt64.toNat_add, show (1 : UInt64).toNat = 1 from rfl] at nat
      omega
    exact absurd hs one
  | rotate =>
    simp only [apply] at h
    split at h <;> cases h
    exact hu hn

end Apply

def ListenerState.withoutTraffic (state : ListenerState) : ListenerState := state.mapUsers User.withoutTraffic

structure Mutated (lib : Library) (inbound : String) (expectedRevision : Int64) (m m' : Manager) : Prop where
  opened : m.storePath ≠ ""
  config : m'.config = m.config
  storePath : m'.storePath = m.storePath
  listener : ∃ current state, m.store.listeners.lookup inbound = some current ∧ current.revision = expectedRevision ∧
    m'.store.listeners.lookup inbound = some state ∧ current.revision < state.revision
  others : ∀ name, name ≠ inbound →
    (m'.store.listeners.lookup name).map ListenerState.withoutTraffic = (m.store.listeners.lookup name).map ListenerState.withoutTraffic
  files : ∀ path, path ≠ m.storePath → m'.files path = m.files path
  core : Core lib m'
  serving : Serving m'
  saved : Saved lib m'

/-- The users of the listener and the subscriptions are what the mutation makes of those before, with the traffic synchronized. -/
def Applies (mutation : Mutation) (inbound : String) (m m' : Manager) : Prop :=
  ∃ current mutated state, m.syncTrafficLocked.store.listeners.lookup inbound = some current ∧
    mutation.apply m.store.subscriptions current = .ok (m'.store.subscriptions, mutated) ∧
    m'.store.listeners.lookup inbound = some state ∧ state.users = mutated.users

namespace Manager

variable {lib : Library} {env : CallEnv} {m : Manager} {inbound : String} {current : ListenerState} {mutation : Mutation}

variable {config : Config}

theorem synced_candidate {mutated : ListenerState} {subscriptions : GoMap String String} {candidate : Store}
    (hpu : Published lib m config) (hs : Synced m.counters m.store m.runtime)
    (ht : m.store.listeners.lookup inbound = some current)
    (ha : mutation.apply m.store.subscriptions current = .ok (subscriptions, mutated))
    (hv : ValidStore lib candidate) (state : ListenerState) (hus : state.users = mutated.users)
    (hl : candidate.listeners = m.store.listeners.insert inbound state) : Synced m.counters candidate m.runtime := by
  have now : candidate.listeners.lookup inbound = some state := by rw [hl, lookup_insert_eq, if_pos rfl]
  rw [synced_iff]
  intro p hp _ live
  obtain ⟨hc, hg⟩ := Option.filter_eq_some_iff.mp live
  obtain ⟨ref, hk, _⟩ := Option.map_eq_some_iff.mp hc
  obtain ⟨q, hq, key⟩ := hpu.runtime.keys p.key ref hk
  have at_q := hpu.runtime.live hs hq
  rw [key, hc] at at_q
  have hc_eq := Option.some.inj at_q
  have id : q.user.id = p.user.id := congrArg TrafficKey.userID key
  have sameInbound : q.inbound = p.inbound := congrArg TrafficKey.inbound key
  have same : SameTraffic q.user p.user := by
    obtain ⟨hh, hpo⟩ := mem_places.mp hp
    obtain ⟨hh', hpo'⟩ := mem_places.mp hq
    by_cases hm : p.inbound = inbound
    · rw [hm, now] at hh
      rw [sameInbound, hm, ht] at hh'
      have old := mem_of_getElem? hpo'
      have new := mem_of_getElem? hpo
      rw [← Option.some.inj hh'] at old
      rw [← Option.some.inj hh, hus] at new
      refine apply_traffic ha (listener_ids_nodup hpu.valid.ids ht) ?_ old new id.symm
      rw [← hus]
      exact listener_ids_nodup hv.ids now
    · have hp' : p ∈ m.store.places := by
        rw [hl, lookup_insert_eq, if_neg hm] at hh
        exact mem_places.mpr ⟨hh, hpo⟩
      rw [places_unique hpu.valid.ids hq hp' id]
      exact fun _ => ⟨rfl, rfl⟩
  have hge : p.user.trafficGeneration = q.user.trafficGeneration := by
    rw [hc_eq] at hg
    exact (of_decide_eq_true hg).symm
  obtain ⟨hu, hd⟩ := same hge
  rw [hc_eq, hu, hd]
  exact ⟨rfl, rfl⟩

def requestChanges (m : Manager) (inbound : String) (current state : ListenerState) : List ListenerChange :=
  if activeManagedUsers current = activeManagedUsers state then []
  else [⟨inbound, (m.instances.lookup inbound).getD 0, activeManagedUsers current, activeManagedUsers state⟩]

theorem requestChanges_nodup (m : Manager) (inbound : String) (current state : ListenerState) :
    ((requestChanges m inbound current state).map ListenerChange.name).Nodup := by
  unfold requestChanges
  split
  · exact nodup_nil
  · exact nodup_singleton _

theorem requestChanges_starts (hs : Serving m) (hm : inbound ∈ m.managedListeners)
    (ht : m.store.listeners.lookup inbound = some current) (state : ListenerState) :
    ∀ change ∈ requestChanges m inbound current state, change.Starts m.inbounds := by
  intro _ mem
  obtain ⟨_, l, hl, hh, hse⟩ := hs inbound hm
  rw [ht] at hl
  cases hl
  unfold requestChanges at mem
  split at mem
  · cases mem
  · rw [mem_singleton.mp mem]
    exact ⟨l, hh, hse⟩

theorem requestChanges_serves {inbounds : Inbounds} {state : ListenerState} (hs : Serving m) (hm : inbound ∈ m.managedListeners)
    (ht : m.store.listeners.lookup inbound = some current)
    (ha : ChangesApplied (requestChanges m inbound current state) m.inbounds inbounds) :
    (∃ l, inbounds inbound = .managed l ∧ l.current = activeManagedUsers state) ∧
      ∀ name, name ≠ inbound → inbounds name = m.inbounds name := by
  obtain ⟨_, l, hl, hh, hse⟩ := hs inbound hm
  rw [ht] at hl
  cases hl
  unfold requestChanges at ha
  split at ha
  next same =>
    have all : ∀ name, inbounds name = m.inbounds name := fun name => ha.2 name (by simp)
    exact ⟨⟨l, (all inbound).trans hh, hse.trans same⟩, fun name _ => all name⟩
  · obtain ⟨_, _, now⟩ := ha.1 _ mem_cons_self
    exact ⟨⟨_, now, rfl⟩, fun name ne => ha.2 name (by simpa using ne)⟩

theorem publish_mutated {mutated state : ListenerState} {subscriptions : GoMap String String} {candidate saved : Store}
    {inbounds : Inbounds} {files : StoreFiles} (hc : Core lib m) (he : m.config = some config) (hse : Serving m)
    (hm : inbound ∈ m.managedListeners) (hsy : Synced m.counters m.store m.runtime)
    (hth : m.store.listeners.lookup inbound = some current)
    (hre : mutation.apply m.store.subscriptions current = .ok (subscriptions, mutated))
    (hu : state.users = mutated.users) (hr : state.revision = nextRevision env.now current.revision)
    (hw : candidate = { m.store with listeners := m.store.listeners.insert inbound state, subscriptions := subscriptions })
    (ha : ChangesApplied (requestChanges m inbound current state) m.inbounds inbounds)
    (hsa : Saves lib (m.files m.storePath) candidate files saved) :
    let m' := { m with
      inbounds := inbounds, files := update m.files m.storePath files, store := saved,
      userIndex := reindexListener m.userIndex current state }.publishLocked
    Mutated lib inbound current.revision m m' ∧ m'.store = saved := by
  intro m'
  have hp := hc.published config he
  have hl : saved.listeners = m.store.listeners.insert inbound state := by rw [hsa.written, hw]
  have now : saved.listeners.lookup inbound = some state := by rw [hl, lookup_insert_eq, if_pos rfl]
  have hf := (hsa.valid.listeners _ (mem_entries_iff.mpr now)).fields
  have hn : state.name = inbound := by
    by_contra other
    exact hf (.inr (.inl other))
  have ht := synced_candidate hp hsy hth hre hsa.valid state hu hl
  obtain ⟨hs, ho⟩ := requestChanges_serves hse hm hth ha
  obtain ⟨flag, hld⟩ := hsa.loads
  let m₂ : Manager :=
    { m with
      inbounds := inbounds, files := update m.files m.storePath files, store := saved,
      userIndex := reindexListener m.userIndex current state }
  have hi := reindexListener_indexes hp.index hp.valid.ids hsa.valid.ids hth hl hn
  have hlo : loadStore lib (m₂.files m₂.storePath) = .ok (m₂.store, flag) := by
    rw [← hld]
    exact congrArg (loadStore lib) (update_self _ _ _)
  obtain ⟨⟨_, _, hfi⟩, hc', hs'⟩ := core_publish (m := m₂) he hc.nonneg hc.pointers ht hc.unlock hsa.valid
    hi hp.path hp.openStore ⟨flag, hlo⟩
  unfold m'
  rw [hfi] at hc' hs' ⊢
  refine ⟨⟨hp.openStore, rfl, rfl, ⟨current, state, hth, rfl, now, ?_⟩, ?_, ?_, hc', ?_, hs'⟩, rfl⟩
  · rw [hr]
    exact nextRevision_lt (hp.valid.revision_pos hth) (hr ▸ hsa.valid.revision_pos now)
  · intro _ ne
    rw [hl, lookup_insert_eq, if_neg ne]
  · intro _ ne
    exact update_of_ne ne _ _
  · intro other mem
    by_cases same : other = inbound
    · obtain ⟨l, hh, hs⟩ := hs
      rw [same]
      exact ⟨state, l, now, hh, hs⟩
    · obtain ⟨state', l, hlk, hh, hse'⟩ := hse other mem
      refine ⟨state', l, ?_, (ho other same).trans hh, hse'⟩
      rw [hl, lookup_insert_eq, if_neg same, hlk]

theorem commitMutation_cases (env : CallEnv) (mutation : Mutation) (core : Core lib m) (hen : m.config = some config)
    (hsr : Serving m)
    (hm : inbound ∈ m.managedListeners) (hsy : Synced m.counters m.store m.runtime)
    (ht : m.store.listeners.lookup inbound = some current) :
    (∃ e, commitMutation lib env inbound current mutation m = (m, .error e) ∧ e.rollbackFailed = false) ∨
    (∃ m' e, commitMutation lib env inbound current mutation m = (m', .error e) ∧ e.rollbackFailed = true ∧ ClosedDown lib m.managedListeners m' ∧ SameContent lib m m') ∨
    ∃ m' state mutated, commitMutation lib env inbound current mutation m = (m', .ok state) ∧
      Mutated lib inbound current.revision m m' ∧
      mutation.apply m.store.subscriptions current = .ok (m'.store.subscriptions, mutated) ∧
      m'.store.listeners.lookup inbound = some state ∧ state.users = mutated.users := by
  unfold commitMutation
  split
  next e _ => exact .inl ⟨.plain e, rfl, rfl⟩
  next subscriptions mutated ha =>
    simp only
    generalize hse : ({ mutated with revision := nextRevision env.now current.revision, appliedRevision := nextRevision env.now current.revision } :
      ListenerState) = state
    have hu : state.users = mutated.users := by rw [← hse]
    have hre : state.revision = nextRevision env.now current.revision := by rw [← hse]
    split
    next e _ => exact .inl ⟨.plain e, rfl, rfl⟩
    · have hn := requestChanges_nodup m inbound current state
      have hs := requestChanges_starts hsr hm ht state
      rw [show (if activeManagedUsers current = activeManagedUsers state then [] else _) = requestChanges m inbound current state from rfl]
      generalize hce : requestChanges m inbound current state = changes at hn hs
      rcases applyChanges_cases lib env.listeners hn hs with
        ⟨inbounds, hr, he⟩ | ⟨e, hr, hp⟩ | ⟨inbounds, e, hr, hf⟩
      · rw [hr]
        have hc' : Core lib { m with inbounds := inbounds } := core.frame _ _ _ _
        simp only
        rcases persistStore_cases lib env.commit { m with inbounds := inbounds } m.storePath
          { m.store with listeners := m.store.listeners.insert inbound state, subscriptions := subscriptions }
          with ⟨e, hf⟩ | ⟨files, saved, ok, hsa⟩
        · rw [hf]
          simp only
          rcases undo_cases hc' env [] (.wrapped "persist Aster mutation" (.plain e)) hn he.touched hs
            with same | ⟨hf, hc⟩
          · rw [same]
            exact .inl ⟨_, rfl, rfl⟩
          · exact .inr (.inl ⟨_, _, rfl, hf, hc⟩)
        · rw [ok]
          rw [← hce] at he
          obtain ⟨done, store⟩ := publish_mutated core hen hsr hm hsy ht ha hu hre rfl he hsa
          refine .inr (.inr ⟨_, state, mutated, rfl, done, ?_, ?_, hu⟩)
          · rw [store, hsa.written, ha]
          · rw [store, hsa.written, lookup_insert_eq, if_pos rfl]
      · rw [hr]
        exact .inl ⟨e, rfl, hp⟩
      · rw [hr]
        have hc' : Core lib { m with inbounds := inbounds } := core.frame _ _ _ _
        obtain ⟨hf', hc⟩ := stuck_spec hc' env [] hf
        exact .inr (.inl ⟨_, _, rfl, hf', hc⟩)

end Manager

structure Inv (lib : Library) (m : Manager) : Prop where
  core : Core lib m
  serving : Serving m
  dirty : m.dirty = true ∨ Saved lib m

section Requests

variable {lib : Library} {m : Manager}

theorem Kept.refl (hc : Core lib m) (hd : m.dirty = true ∨ Saved lib m) : Kept lib m m :=
  ⟨rfl, rfl, rfl, rfl, rfl, rfl, .inl rfl, SameRuntime.refl _, hd, hc⟩

theorem Serving.sync (hs : Serving m) : Serving m.syncTrafficLocked := by
  intro name mem
  obtain ⟨state, l, hl, hh, hse⟩ := hs name mem
  refine ⟨state.mapUsers (syncUser m.counters m.runtime name), l, ?_, hh, ?_⟩
  · show (m.store.mapUsers (syncUser m.counters m.runtime)).listeners.lookup name = _
    rw [lookup_mapUsers, hl]
    rfl
  · rw [activeManagedUsers_mapUsers (syncUser_trafficOnly _ _)]
    exact hse

theorem Saved.sync (hs : Saved lib m) : Saved lib m.syncTrafficLocked := by
  rcases hs with hc | ⟨flag, hl⟩
  · exact .inl hc
  · refine .inr ⟨flag, ?_⟩
    show loadStore lib (m.files m.storePath) = .ok (syncTrafficStore m.counters (syncTrafficStore m.counters m.store m.runtime) m.runtime, flag)
    rw [syncTrafficStore_idem]
    exact hl

theorem Kept.sync (inv : Inv lib m) : Kept lib m { m.syncTrafficLocked with dirty := m.dirty } := by
  refine ⟨rfl, rfl, rfl, rfl, rfl, rfl, .inr ⟨m.store.generation, rfl⟩, SameRuntime.refl _, ?_, inv.core.sync.frame _ _ _ _⟩
  rcases inv.dirty with hd | hs
  · exact .inl hd
  · exact .inr hs.sync

theorem withoutTraffic_mapUsers {f : String → User → User} (ho : TrafficOnly f) (inbound : String) (state : ListenerState) :
    (state.mapUsers (f inbound)).withoutTraffic = state.withoutTraffic := by
  unfold withoutTraffic mapUsers
  rw [map_map]
  congr 1
  exact map_congr_left fun user _ => ho inbound user

theorem Mutated.of_synced {inbound : String} {expectedRevision : Int64} {m' : Manager}
    (h : Mutated lib inbound expectedRevision { m.syncTrafficLocked with dirty := false } m') :
    Mutated lib inbound expectedRevision m m' := by
  have hl : ∀ name, (syncTrafficStore m.counters m.store m.runtime).listeners.lookup name =
      (m.store.listeners.lookup name).map (mapUsers (syncUser m.counters m.runtime name)) := lookup_mapUsers _ _
  refine ⟨h.opened, h.config, h.storePath, ?_, fun name ne => ?_, h.files, h.core, h.serving, h.saved⟩
  · obtain ⟨_, state, ht, hr, now, hi⟩ := h.listener
    rw [show ({ m.syncTrafficLocked with dirty := false } : Manager).store = syncTrafficStore m.counters m.store m.runtime from rfl, hl] at ht
    obtain ⟨current', ht', rfl⟩ := Option.map_eq_some_iff.mp ht
    exact ⟨current', state, ht', hr, now, hi⟩
  · rw [h.others name ne]
    show ((syncTrafficStore m.counters m.store m.runtime).listeners.lookup name).map _ = _
    rw [hl]
    cases m.store.listeners.lookup name with
    | none => rfl
    | some state => exact congrArg some (withoutTraffic_mapUsers (syncUser_trafficOnly _ _) name state)

/-- How a request ends: it is refused and changes nothing but the traffic, everything is closed down, or it is `done`. -/
def Answered (lib : Library) (m : Manager) {α : Type} (done : Manager → α → Prop) (result : Manager × Except CallError α) : Prop :=
  (∃ m' e, result = (m', .error e) ∧ e.rollbackFailed = false ∧ Kept lib m m' ∧ m'.files = m.files ∧
    m'.store.withoutTraffic = m.store.withoutTraffic) ∨
  (∃ m' e, result = (m', .error e) ∧ e.rollbackFailed = true ∧ ClosedDown lib m.managedListeners m' ∧ SameContent lib m m') ∨
  ∃ m' reply, result = (m', .ok reply) ∧ done m' reply

theorem Answered.refused (inv : Inv lib m) {α : Type} (done : Manager → α → Prop) (e : Failure) :
    Answered lib m done (m, .error (.plain e)) :=
  .inl ⟨m, .plain e, rfl, rfl, Kept.refl inv.core inv.dirty, rfl, rfl⟩

theorem Manager.mutateListenerLocked_cases (env : CallEnv) (expectedRevision : Int64) (mutation : Mutation) {inbound : String}
    {config : Config}
    (inv : Inv lib m) (he : m.config = some config) (hma : inbound ∈ m.managedListeners) :
    Answered lib m (fun m' _ => Mutated lib inbound expectedRevision m m' ∧ Applies mutation inbound m m')
    (m.mutateListenerLocked lib env inbound expectedRevision mutation) := by
  unfold mutateListenerLocked
  split
  · exact .refused inv _ _
  · split
    · exact .refused inv _ _
    next ht₀ =>
      split
      · exact .refused inv _ _
      next same =>
        rw [not_ne_iff] at same
        simp only
        have core : Core lib ({ m with dirty := false } : Manager).syncTrafficLocked := inv.core.sync.frame _ _ _ _
        have hs := inv.serving.sync
        have hsy : Synced m.counters (syncTrafficStore m.counters m.store m.runtime) m.runtime := syncTrafficStore_idem _ _ _
        split
        · exact .refused inv _ _
        next current ht =>
          have hre : current.revision = expectedRevision := by
            have hl := lookup_mapUsers (syncUser m.counters m.runtime) m.store inbound
            rw [show (m.store.mapUsers (syncUser m.counters m.runtime)).listeners.lookup inbound = some current from ht, ht₀] at hl
            rw [Option.some.inj hl]
            exact same
          rcases commitMutation_cases env mutation core he hs hma hsy ht with
            ⟨e, hr, hu⟩ | ⟨m', e, hr, hf, hc, hco⟩ |
            ⟨m', state, mutated, hr, hm, ha⟩
          · rw [hr]
            left
            refine ⟨_, e, rfl, hu, ?_, rfl, withoutTraffic_syncTrafficStore _ _ _⟩
            rw [show (m.dirty || ({ m with dirty := false } : Manager).syncTrafficLocked.dirty) = m.dirty from Bool.or_false _]
            exact Kept.sync inv
          · rw [hr]
            refine .inr (.inl ⟨_, e, rfl, hf, ⟨hc.config, hc.runtime, hc.closed, ?_, hc.core.frame _ _ _ _⟩, hco⟩)
            rcases hc.dirty with hd | hsa
            · exact .inl (by simp [hd])
            · exact .inr hsa
          · rw [hr]
            rw [hre] at hm
            exact .inr (.inr ⟨m', state, rfl, hm.of_synced, current, mutated, state, ht, ha⟩)

theorem Manager.request_cases (inv : Inv lib m) (env : CallEnv) (mutation : Mutation) (expectedRevision : Int64) :
    Answered lib m (fun m' _ => ∃ inbound, m.inboundOf mutation = some inbound ∧ Mutated lib inbound expectedRevision m m' ∧
        Applies mutation inbound m m')
      (m.request lib env mutation expectedRevision) := by
  unfold request
  split
  · exact .refused inv _ _
  next he =>
    obtain ⟨config, he⟩ := Option.ne_none_iff_exists'.mp he
    split
    · exact .refused inv _ _
    next inbound ht =>
      split
      · exact .refused inv _ _
      next hm =>
        rw [not_not] at hm
        have mine : inbound ∈ m.managedListeners := by
          rw [(inv.core.published config he).runtime.header] at hm
          rw [managedListeners, he]
          exact hm
        rcases mutateListenerLocked_cases env expectedRevision mutation inv he mine with
          ⟨m', e, hr, hu, hk, hfi⟩ | ⟨m', e, hr, hf, hc⟩ | ⟨m', state, hr, hmu⟩
        · rw [hr]
          exact .inl ⟨m', e, rfl, hu, hk, hfi⟩
        · rw [hr]
          exact .inr (.inl ⟨m', e, rfl, hf, hc⟩)
        · rw [hr]
          exact .inr (.inr ⟨m', _, rfl, inbound, ht, hmu⟩)

end Requests

end AsterCore.Aster
