import AsterCore.AsterRequests

namespace AsterCore.Aster

open List Function ListenerChange

def revisionAt (lib : Library) (files : StoreFiles) (name : String) : Option Int64 :=
  (content lib files).toOption.bind fun store => (store.listeners.lookup name).map ListenerState.revision

/-- No listener in the files loses its revision or gets another one. -/
def KeepsRevisions (lib : Library) (m m' : Manager) : Prop :=
  ∀ path name revision, revisionAt lib (m.files path) name = some revision → revisionAt lib (m'.files path) name = some revision

structure Configured (lib : Library) (config : Option Config) (m m' : Manager) : Prop where
  config : m'.config = config
  serving : Serving m'
  released : ∀ name ∈ m.managedListeners, name ∉ m'.managedListeners → ∀ l, m'.inbounds name = .managed l → l.current = l.configured
  saved : Saved lib m'
  core : Core lib m'
  revisions : KeepsRevisions lib m m'

section Revisions

variable {lib : Library} {m m' m'' : Manager}

theorem SameContent.keeps (h : SameContent lib m m') : KeepsRevisions lib m m' := by
  intro path _ _ ht
  rw [revisionAt, h path]
  exact ht

theorem KeepsRevisions.trans (h : KeepsRevisions lib m m') (h' : KeepsRevisions lib m' m'') : KeepsRevisions lib m m'' :=
  fun path name revision ht => h' path name revision (h path name revision ht)

theorem revisionAt_eq_some {files : StoreFiles} {name : String} {revision : Int64} :
    revisionAt lib files name = some revision ↔
      ∃ store flag state, loadStore lib files = .ok
    (store, flag) ∧ store.listeners.lookup name = some state ∧ state.revision = revision := by
  unfold revisionAt content
  cases loaded : loadStore lib files with
  | error => simp [Except.map, Except.toOption]
  | ok result =>
    obtain ⟨store, flag⟩ := result
    have hl := lookup_mapUsers (fun _ => User.withoutTraffic) store name
    simp only [Except.map, Except.toOption, Option.bind_some]
    rw [show ({ store.withoutTraffic with generation := 0 } : Store).listeners.lookup name = _ from hl, Option.map_map,
      Option.map_eq_some_iff]
    constructor
    · rintro ⟨state, ht, hs⟩
      exact ⟨store, flag, state, rfl, ht, hs⟩
    · rintro ⟨_, _, state, eq, ht, hs⟩
      cases eq
      exact ⟨state, ht, hs⟩

theorem keepsRevisions_saves {path : String} {store saved : Store} {files : StoreFiles}
    (hw : m'.files = update m.files path files) (hs : Saves lib (m.files path) store files saved)
    (hk : ∀ disk flag, loadStore lib (m.files path) = .ok (disk, flag) → ∀ name state, disk.listeners.lookup name = some state →
      ∃ state', store.listeners.lookup name = some state' ∧ state'.revision = state.revision) : KeepsRevisions lib m m' := by
  intro other name revision ht
  rw [hw]
  by_cases same : other = path
  · rw [same] at ht ⊢
    rw [update_self, revisionAt_eq_some]
    obtain ⟨disk, flag, state, hlo, hl, rfl⟩ := revisionAt_eq_some.mp ht
    obtain ⟨state', hl', revision⟩ := hk disk flag hlo name state hl
    obtain ⟨flag', hlo'⟩ := hs.loads
    refine ⟨saved, flag', state', hlo', ?_, revision⟩
    rw [hs.written]
    exact hl'
  · rw [update_of_ne same]
    exact ht

end Revisions

structure Settled (lib : Library) (m m' : Manager) : Prop where
  written : ∃ files generation, m' =
    { m with dirty := false, files := files, store := { syncTrafficStore m.counters m.store m.runtime with generation := generation } }
  core : Core lib m'
  synced : Synced m'.counters m'.store m'.runtime
  saved : Saved lib m'
  content : SameContent lib m m'

variable {lib : Library} {m : Manager}

theorem Manager.saveTraffic_cases (env : CallEnv) (core : Core lib m) (hd : m.dirty = true ∨ Saved lib m) :
    (∃ e, m.saveTraffic lib env = ({ m.syncTrafficLocked with dirty := true }, some e)) ∨
      ∃ m', m.saveTraffic lib env = (m', none) ∧ Settled lib m m' := by
  have hc' : Core lib ({ m with dirty := false } : Manager).syncTrafficLocked := core.sync.frame _ _ _ _
  have hs : Synced m.counters (syncTrafficStore m.counters m.store m.runtime) m.runtime := syncTrafficStore_idem _ _ _
  unfold saveTraffic
  simp only
  split
  next hu =>
    rcases persist_cases lib env.before ({ m with dirty := false } : Manager).syncTrafficLocked with ⟨e, he⟩ | ⟨files, saved, ok, hsa⟩
    · rw [he]
      exact .inl ⟨e, rfl⟩
    · rw [ok]
      refine .inr ⟨_, rfl, ⟨update m.files m.storePath files, saved.generation, ?_⟩, hc'.saved hsa, ?_, saved_of_saves hs hsa,
        (hc'.attached hu.2).content_saved hsa⟩
      · rw [hsa.written]
        rfl
      · show syncTrafficStore m.counters saved m.runtime = saved
        rw [hsa.written]
        exact congrArg (fun store : Store => { store with generation := m.store.generation + 1 }) hs
  next hc =>
    refine .inr ⟨_, rfl, ⟨m.files, m.store.generation, rfl⟩, hc', hs, ?_, fun path => rfl⟩
    rcases hd with hd | saved
    · left
      by_contra ho
      exact hc ⟨hd, ho⟩
    · exact saved.sync

theorem Settled.kept {m₁ : Manager} (hs : Settled lib m m₁) : Kept lib m m₁ := by
  obtain ⟨⟨_, generation, rfl⟩, hc, _, hsa, _⟩ := hs
  exact ⟨rfl, rfl, rfl, rfl, rfl, rfl, .inr ⟨generation, rfl⟩, SameRuntime.refl _, .inr hsa, hc⟩

theorem Settled.trans {m₁ m' : Manager} (hs : Settled lib m m₁) (hk : Kept lib m₁ m') : Kept lib m m' := by
  obtain ⟨⟨_, generation, rfl⟩, _, hsy, _, _⟩ := hs
  refine ⟨hk.config, hk.userIndex, hk.storePath, hk.storeUnlock, hk.instances, hk.inbounds, .inr ?_, hk.runtime, hk.dirty,
    hk.core⟩
  rcases hk.store with same | ⟨generation', ha⟩
  · exact ⟨generation, same⟩
  · refine ⟨generation', ?_⟩
    rw [ha, show syncTrafficStore _ _ _ = _ from hsy]

section Prepare

variable {lib : Library} {env : CallEnv} {managed : List String} {inbounds : Inbounds} {store : Store}

structure Prepares (managed : List String) (inbounds : Inbounds) (store : Store) (done : List String) (p : Prepared) : Prop where
  names : ∀ change ∈ p.changes, change.name ∈ done
  nodup : (p.changes.map ListenerChange.name).Nodup
  starts : ∀ change ∈ p.changes, change.Starts inbounds
  serves : ∀ name ∈ done, name ∈ managed → ∃ l state, inbounds name = .managed l ∧ p.store.listeners.lookup name = some state ∧
    (⟨name, l.identity, l.current, activeManagedUsers state⟩ : ListenerChange) ∈ p.changes
  releases : ∀ name ∈ done, name ∉ managed → ∀ l, inbounds name = .managed l →
    (⟨name, l.identity, l.current, l.configured⟩ : ListenerChange) ∈ p.changes
  kept : ∀ name state, store.listeners.lookup name = some state → p.store.listeners.lookup name = some state

variable {name : String} {done names : List String} {p : Prepared} {e : CallError}

theorem listenerStateOf_eq_ok {seed : SeedEnv} {l : ManagedInbound} {state : ListenerState} {store' : Store}
    (h : listenerStateOf lib seed name l store = .ok (state, store')) :
    store'.listeners.lookup name = some state ∧
      ∀ other state', store.listeners.lookup other = some state' → store'.listeners.lookup other = some state' := by
  unfold listenerStateOf at h
  split at h
  next ht =>
    cases h
    exact ⟨ht, fun _ _ hs => hs⟩
  next ha =>
    split at h <;> cases h
    refine ⟨by rw [GoMap.lookup_insert_eq, if_pos rfl], fun other state' ht => ?_⟩
    have ne : other ≠ name := by
      rintro rfl
      rw [ha] at ht
      cases ht
    rw [GoMap.lookup_insert_eq, if_neg ne, ht]

section

variable (h : Prepares managed inbounds store done p)

include h

theorem Prepares.add (change : ListenerChange) {store' : Store}
    {instances : GoMap String Nat} (hf : change.name ∉ done) (hs : change.Starts inbounds)
    (hg : ∀ name state, p.store.listeners.lookup name = some state → store'.listeners.lookup name = some state)
    (hse : change.name ∈ managed → ∃ l state, inbounds change.name = .managed l ∧ store'.listeners.lookup change.name = some state ∧
      change = ⟨change.name, l.identity, l.current, activeManagedUsers state⟩)
    (hr : change.name ∉ managed → ∀ l, inbounds change.name = .managed l → change = ⟨change.name, l.identity, l.current, l.configured⟩) :
    Prepares managed inbounds store (done ++ [change.name]) ⟨store', p.changes ++ [change], instances⟩ := by
  have hl : change ∈ p.changes ++ [change] := mem_append_right _ (mem_singleton.mpr rfl)
  constructor
  · intro c hc
    rcases mem_append.mp hc with hc | hc
    · exact mem_append_left _ (h.names c hc)
    · rw [mem_singleton.mp hc]
      exact mem_append_right _ (mem_singleton.mpr rfl)
  · rw [map_append, map_singleton, nodup_concat h.nodup]
    intro mem
    obtain ⟨c, hc, same⟩ := mem_map.mp mem
    exact hf (same ▸ h.names c hc)
  · intro c hc
    rcases mem_append.mp hc with hc | hc
    · exact h.starts c hc
    · rw [mem_singleton.mp hc]
      exact hs
  · intro name hn mem
    rcases mem_append.mp hn with hn | hn
    · obtain ⟨l, state, hh, ht, hc⟩ := h.serves name hn mem
      exact ⟨l, state, hh, hg name state ht, mem_append_left _ hc⟩
    · rw [mem_singleton.mp hn] at mem ⊢
      obtain ⟨l, state, hh, ht, same⟩ := hse mem
      exact ⟨l, state, hh, ht, same ▸ hl⟩
  · intro name hn ho l hh
    rcases mem_append.mp hn with hn | hn
    · exact mem_append_left _ (h.releases name hn ho l hh)
    · rw [mem_singleton.mp hn] at ho hh ⊢
      exact hr ho l hh ▸ hl
  · intro name state ht
    exact hg name state (h.kept name state ht)

theorem prepareListener_prepares {p' : Prepared}
    (hf : name ∉ done) (ok : prepareListener lib env managed inbounds p name = .ok p') :
    Prepares managed inbounds store (done ++ [name]) p' := by
  unfold prepareListener at ok
  split at ok
  next l hh =>
    split at ok
    next mem =>
      split at ok
      · cases ok
      next state _ hfo =>
        split at ok <;> cases ok
        obtain ⟨ht, hg⟩ := listenerStateOf_eq_ok hfo
        exact h.add ⟨name, l.identity, l.current, activeManagedUsers state⟩ hf ⟨l, hh, rfl⟩ hg
          (fun _ => ⟨l, state, hh, ht, rfl⟩) (absurd mem)
    next ho =>
      cases ok
      refine h.add ⟨name, l.identity, l.current, l.configured⟩ hf ⟨l, hh, rfl⟩ (fun _ _ hs => hs)
        (fun mem => absurd mem ho) (fun _ l' hh' => ?_)
      rw [show inbounds name = .managed l' from hh'] at hh
      cases hh
      rfl
  next hm =>
    split at ok <;> cases ok
    next ho =>
      refine ⟨fun c hc => mem_append_left _ (h.names c hc), h.nodup, h.starts, fun n hn mem => ?_, fun n hn un l hh => ?_, h.kept⟩
      · rcases mem_append.mp hn with hn | hn
        · exact h.serves n hn mem
        · rw [mem_singleton.mp hn] at mem
          exact absurd mem ho
      · rcases mem_append.mp hn with hn | hn
        · exact h.releases n hn un l hh
        · rw [mem_singleton.mp hn] at hh
          exact absurd hh (hm l)

theorem prepareListeners_prepares {p' : Prepared}
    (hn : (done ++ names).Nodup) (ok : prepareListeners lib env managed inbounds p names = .ok p') :
    Prepares managed inbounds store (done ++ names) p' := by
  induction names generalizing done p with
  | nil =>
    cases ok
    rw [append_nil]
    exact h
  | cons name _ ih =>
    unfold prepareListeners at ok
    split at ok
    · cases ok
    next hf =>
      have hfr : name ∉ done := fun mem => (nodup_append.mp hn).2.2 name mem name mem_cons_self rfl
      rw [append_cons] at hn ⊢
      exact ih (prepareListener_prepares h hfr hf) hn ok

end

theorem seedUsers_error {seed : SeedEnv} {protocol : String} {i : Nat} {users : List User}
    {subscriptions : GoMap String String} {configured : List ManagedUser}
    (h : seedUsers lib seed name protocol i names users subscriptions configured = .error e) : e.rollbackFailed = false := by
  induction configured generalizing i names users subscriptions with
  | nil => cases h
  | cons _ _ ih =>
    simp only [seedUsers] at h
    split at h
    · cases h
      rfl
    · split at h
      · cases h
        rfl
      · exact ih h

theorem prepareListener_error (h : prepareListener lib env managed inbounds p name = .error e) : e.rollbackFailed = false := by
  unfold prepareListener at h
  split at h
  next l _ =>
    split at h
    · split at h
      next hf =>
        cases h
        unfold listenerStateOf seedListener at hf
        split at hf
        · cases hf
        · split at hf
          next hs =>
            split at hs <;> cases hs
            next hi =>
              cases hf
              exact seedUsers_error hi
          · cases hf
      · split at h <;> cases h
        rfl
    · cases h
  · split at h <;> cases h
    cases inbounds name <;> rfl

theorem prepareListeners_error (h : prepareListeners lib env managed inbounds p names = .error e) : e.rollbackFailed = false := by
  induction names generalizing p with
  | nil => cases h
  | cons _ _ ih =>
    unfold prepareListeners at h
    split at h
    next hf =>
      cases h
      exact prepareListener_error hf
    · exact ih h

theorem prepares_start (managed : List String) (inbounds : Inbounds) (store : Store) :
    Prepares managed inbounds store [] { store := store } :=
  ⟨nofun, nodup_nil, nofun, nofun, nofun, fun _ _ ht => ht⟩

theorem Prepares.applied {after : Inbounds} (h : Prepares managed inbounds store done p)
    (ha : ChangesApplied p.changes inbounds after) :
    (∀ name ∈ done, name ∈ managed → ∃ state l, p.store.listeners.lookup name = some state ∧ after name = .managed l ∧
      l.current = activeManagedUsers state) ∧
      ∀ name ∈ done, name ∉ managed → ∀ l, after name = .managed l → l.current = l.configured := by
  constructor
  · intro name hn mem
    obtain ⟨l, state, _, ht, hc⟩ := h.serves name hn mem
    obtain ⟨_, _, now⟩ := ha.1 _ hc
    exact ⟨state, _, ht, now, rfl⟩
  · intro name hn ho l now
    cases hh : inbounds name with
    | managed l₀ =>
      obtain ⟨_, hb, applied⟩ := ha.1 _ (h.releases name hn ho l₀ hh)
      rw [hh] at hb
      cases hb
      rw [now] at applied
      cases applied
      rfl
    | absent | plain =>
      have mem : name ∉ p.changes.map ListenerChange.name := by
        intro mem
        obtain ⟨c, hc, rfl⟩ := mem_map.mp mem
        obtain ⟨_, ht, _⟩ := h.starts c hc
        rw [hh] at ht
        cases ht
      rw [ha.2 name mem, hh] at now
      cases now

theorem lookup_markApplied (instances : GoMap String Nat) (changes : List ListenerChange) {state : ListenerState}
    (ht : store.listeners.lookup name = some state) :
    ∃ state', (markApplied instances changes store).listeners.lookup name = some state' ∧ state'.revision = state.revision ∧
      state'.users = state.users := by
  have hl := GoMap.lookup_mapValues (fun name (state : ListenerState) =>
    if (∃ change ∈ changes, change.name = name) ∧ (instances.lookup name).isSome then
      { state with appliedRevision := state.revision } else state) store.listeners name
  rw [ht] at hl
  refine ⟨_, hl, ?_, ?_⟩
  · split <;> rfl
  · split <;> rfl

end Prepare

/-- What `Configure` may lead to: success, an error after which all is as before, or one after which management is
disabled and the listeners are failed closed. -/
def Outcome (lib : Library) (names : List String) (config : Option Config) (m : Manager) (result : Manager × Option CallError) : Prop :=
  match result.2 with
  | none => Configured lib config m result.1
  | some e => KeepsRevisions lib m result.1 ∧ if e.rollbackFailed then ClosedDown lib names result.1 else Kept lib m result.1

namespace Manager

variable {lib : Library} {m : Manager}

variable {e : CallError}

theorem outcome_kept {names : List String} {config : Option Config} {m' : Manager} (hp : e.rollbackFailed = false)
    (hk : Kept lib m m') (hr : KeepsRevisions lib m m') : Outcome lib names config m (m', some e) := by
  refine ⟨hr, ?_⟩
  rw [if_neg (by simp [hp])]
  exact hk

theorem outcome_closed {names : List String} {config : Option Config} {m' : Manager} (hf : e.rollbackFailed = true)
    (hc : ClosedDown lib names m') (hr : KeepsRevisions lib m m') : Outcome lib names config m (m', some e) := by
  refine ⟨hr, ?_⟩
  rw [if_pos hf]
  exact hc

theorem outcome_stuck {m₂ : Manager} (env : CallEnv) (names : List String) (config : Option Config) (core : Core lib m₂)
    (hf : e.rollbackFailed = true) (hs : m₂.config = m.config) (hr : KeepsRevisions lib m m₂) :
    Outcome lib (names ++ m.managedListeners) config m ((stuck lib env names e m₂).map id some) := by
  obtain ⟨hf', hc, hco⟩ := stuck_spec core env names hf
  have hm : m₂.managedListeners = m.managedListeners := by rw [managedListeners, hs, managedListeners]
  rw [hm] at hc
  exact outcome_closed hf' hc (hr.trans hco.keeps)

theorem outcome_undo {m₂ : Manager} (env : CallEnv) (names : List String) (config : Option Config) {changes : List ListenerChange}
    (core : Core lib m₂) (hp : e.rollbackFailed = false) (same : m₂.config = m.config)
    (hk : Kept lib m { m₂ with inbounds := m.inbounds }) (hr : KeepsRevisions lib m m₂)
    (hn : (changes.map name).Nodup) (ht : Touched (changes.map name) m.inbounds m₂.inbounds)
    (hs : ∀ change ∈ changes, change.Starts m.inbounds) :
    Outcome lib (names ++ m.managedListeners) config m ((undo lib env names changes e m₂).map id some) := by
  have hm : m₂.managedListeners = m.managedListeners := by rw [managedListeners, same, managedListeners]
  rcases undo_cases core env names e hn ht hs with hu | ⟨hf, hc, hco⟩
  · rw [hu]
    exact outcome_kept hp hk hr
  · rw [hm] at hc
    exact outcome_closed hf hc (hr.trans hco.keeps)

end Manager

end AsterCore.Aster
