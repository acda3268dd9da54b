import AsterCore.AsterConfigure

namespace AsterCore.Aster

open List Function ListenerChange

section Rebuild

variable {lib : Library} {m : Manager}

theorem synced_empty (heap : CounterHeap) (store : Store) : Synced heap store {} := by
  rw [synced_iff]
  intro p _ _ live
  cases live

/-- A synchronized store that is open and saved is what its files hold. -/
theorem Saved.loads (hsa : Saved lib m) (hs : Synced m.counters m.store m.runtime) (ho : m.storePath ≠ "") :
    ∃ flag, loadStore lib (m.files m.storePath) = .ok (m.store, flag) := by
  rcases hsa with hc | ⟨flag, hl⟩
  · exact absurd hc ho
  · rw [show syncTrafficStore m.counters m.store m.runtime = m.store from hs] at hl
    exact ⟨flag, hl⟩

/-- The runtime that is built again after another store's runtime is the one from before. -/
theorem rebuilt_same (other : RuntimeState × CounterHeap) (hc : Core lib m) (hs : Synced m.counters m.store m.runtime)
    (hsa : Saved lib m) (hn : other.2.Nonneg) (hp : other.1.traffic.Pointers other.2.next)
    (path : m.config ≠ none → other.1.storePath ≠ m.storePath) :
    SameRuntime (m.runtime, m.counters) (buildRuntimeState m.config m.storePath m.store other.1 other.2) ∧
      Core lib { m with
        runtime := (buildRuntimeState m.config m.storePath m.store other.1 other.2).1,
        counters := (buildRuntimeState m.config m.storePath m.store other.1 other.2).2 } := by
  cases he : m.config with
  | none =>
    have hr := hc.disabled he
    constructor
    · rw [hr]
      exact ⟨rfl, fun _ => rfl, fun _ => rfl, fun _ => rfl⟩
    · exact ⟨hn, GoMap.Pointers.empty _, fun _ => rfl, hc.unlock, nofun, hc.attached⟩
  | some config =>
    have p := hc.published config he
    have ha := path (by simp [he])
    refine ⟨build_same p.valid p.runtime hs hp ha, ?_⟩
    generalize hb : buildRuntimeState (some config) m.storePath m.store other.1 other.2 = next
    have hc' : Core lib { m with config := some config, runtime := next.1, counters := next.2 } ∧ _ :=
      core_built rfl hb.symm hn hp (fun same => absurd same ha) hc.unlock p.valid p.index p.path p.openStore
        (hsa.loads hs p.openStore)
    exact hc'.1

end Rebuild

variable {lib : Library} {m : Manager} {names : List String}

theorem ClosedDown.mono {names' : List String} (hc : ClosedDown lib names m)
    (sub : ∀ name ∈ names', name ∈ names) : ClosedDown lib names' m :=
  ⟨hc.config, hc.runtime, fun name mem => hc.closed name (sub name mem), hc.dirty, hc.core⟩

theorem Outcome.mono {names' : List String} {config : Option Config}
    {result : Manager × Option CallError} (h : Outcome lib names config m result) (sub : ∀ name ∈ names', name ∈ names) :
    Outcome lib names' config m result := by
  unfold Outcome at h ⊢
  split
  next hn =>
    rw [hn] at h
    exact h
  next he =>
    rw [he] at h
    refine ⟨h.1, ?_⟩
    have hr := h.2
    split
    next hf =>
      rw [if_pos hf] at hr
      exact hr.mono sub
    next hp =>
      rw [if_neg hp] at hr
      exact hr

theorem Settled.outcome {config : Option Config} {m₁ : Manager} {result : Manager × Option CallError}
    (hs : Settled lib m m₁) (h : Outcome lib names config m₁ result) : Outcome lib names config m result := by
  have hm : m.managedListeners = m₁.managedListeners := by
    rw [Manager.managedListeners, Manager.managedListeners, hs.kept.config]
  have hr := hs.content.keeps
  unfold Outcome at h ⊢
  split
  next hn =>
    rw [hn] at h
    exact ⟨h.config, h.serving, hm ▸ h.released, h.saved, h.core, hr.trans h.revisions⟩
  next he =>
    rw [he] at h
    refine ⟨hr.trans h.1, ?_⟩
    have rest := h.2
    split
    next hf =>
      rw [if_pos hf] at rest
      exact rest
    next hp =>
      rw [if_neg hp] at rest
      exact hs.trans rest

namespace Manager

variable {lib : Library} {m : Manager}

variable {config : Config} {inbounds : Inbounds} {names : List String} {disk : Store} {prepared : Prepared}

theorem openStore_eq_ok {env : CallEnv} {same : Bool} {store : Store} (h : openStore lib env m config same = .ok store) :
    ∃ flag, loadStore lib (m.files config.storePath) = .ok (store, flag) := by
  unfold openStore at h
  split at h
  · cases h
  · split at h
    · cases h
    · split at h <;> cases h
      next flag ht => exact ⟨flag, ht⟩

theorem openStore_error {env : CallEnv} {same : Bool} {e : CallError} (h : openStore lib env m config same = .error e) :
    e.rollbackFailed = false := by
  unfold openStore at h
  split at h
  · cases h
    rfl
  · split at h
    · cases h
      rfl
    · split at h <;> cases h
      rfl

theorem disableChange_eq_some {name : String} {change : ListenerChange} :
    disableChange inbounds name = some change ↔ ∃ l, inbounds name = .managed l ∧ change = ⟨name, l.identity, l.current, l.configured⟩ := by
  unfold disableChange
  constructor
  · intro h
    split at h <;> cases h
    next l hh => exact ⟨l, hh, rfl⟩
  · rintro ⟨l, hh, rfl⟩
    rw [hh]

theorem mem_disableChanges {change : ListenerChange} :
    change ∈ disableChanges inbounds names ↔
      ∃ name ∈ names, ∃ l, inbounds name = .managed l ∧ change = ⟨name, l.identity, l.current, l.configured⟩ := by
  unfold disableChanges
  simp only [mem_filterMap, disableChange_eq_some]

theorem disableChanges_nodup (hn : names.Nodup) : ((disableChanges inbounds names).map name).Nodup := by
  unfold disableChanges
  rw [map_filterMap]
  refine hn.filterMap ?_
  intro name name' b h h'
  have own : ∀ n, b ∈ (disableChange inbounds n).map ListenerChange.name → b = n := by
    intro n ht
    obtain ⟨_, hm, hs⟩ := Option.map_eq_some_iff.mp ht
    obtain ⟨l, _, rfl⟩ := disableChange_eq_some.mp hm
    exact hs.symm
  exact (own name h).symm.trans (own name' h')

theorem disableLocked_outcome (env : CallEnv) (core : Core lib m) (synced : Synced m.counters m.store m.runtime)
    (saved : Saved lib m) : Outcome lib m.managedListeners none m (m.disableLocked lib env) := by
  unfold disableLocked
  split
  next disabled =>
    refine ⟨disabled, fun name mem => ?_, fun name mem => ?_, .inl rfl, core_released core.nonneg core.pointers disabled (core.disabled disabled),
      fun _ _ _ there => there⟩
    · rw [show m.stopFlusherLocked.releaseStoreLocked.managedListeners = m.managedListeners from rfl, managedListeners, disabled] at mem
      cases mem
    · rw [managedListeners, disabled] at mem
      cases mem
  next config he =>
    have p := core.published config he
    have managed : m.managedListeners = config.managedListeners := by rw [managedListeners, he]; rfl
    have nodup : ((disableChanges m.inbounds (sortedSetKeys config.managedListeners)).map name).Nodup :=
      disableChanges_nodup (nodup_sortedSetKeys _)
    have starts : ∀ change ∈ disableChanges m.inbounds (sortedSetKeys config.managedListeners), change.Starts m.inbounds := by
      intro _ mem
      obtain ⟨_, _, l, here, rfl⟩ := mem_disableChanges.mp mem
      exact ⟨l, here, rfl⟩
    simp only
    generalize changesEq : disableChanges m.inbounds (sortedSetKeys config.managedListeners) = changes at nodup starts
    have more : ∀ name ∈ m.managedListeners, name ∈ sortedSetKeys config.managedListeners ++ m.managedListeners :=
      fun name mem => mem_append_right _ mem
    rcases applyChanges_cases lib env.listeners nodup starts with
      ⟨inbounds, result, ha⟩ | ⟨e, result, plain⟩ | ⟨inbounds, e, result, failed⟩
    · rw [result]
      have retired : syncTrafficStore m.counters m.store m.runtime = m.store := synced
      have swapped : ({ m with inbounds := inbounds } : Manager).swapRuntime ({}, m.counters) =
          { m with inbounds := inbounds, runtime := {} } := by
        simp only [swapRuntime, swapRuntimeLocked, retired]
      simp only [swapped, persistOpen]
      rw [if_pos (show ({ m with inbounds := inbounds, runtime := {} } : Manager).storePath ≠ "" from p.openStore)]
      have attached : Attached lib { m with inbounds := inbounds, runtime := {} } := core.attached p.openStore
      rcases persist_cases lib env.retire { m with inbounds := inbounds, runtime := {} } with ⟨e, failed⟩ | ⟨files, store, ok, saves⟩
      · rw [failed]
        obtain ⟨hsr, core''⟩ := rebuilt_same ({}, m.counters) core synced saved core.nonneg (GoMap.Pointers.empty _)
          (fun _ same => p.openStore same.symm)
        have hp : ({ m with inbounds := inbounds, runtime := {} } : Manager).publishLocked =
            { m with
              inbounds := inbounds
              runtime := (buildRuntimeState m.config m.storePath m.store {} m.counters).1
              counters := (buildRuntimeState m.config m.storePath m.store {} m.counters).2 } := by
          have none : ∀ heap, syncTrafficStore heap m.store {} = m.store := fun heap => synced_empty heap m.store
          simp only [publishLocked, rebuiltRuntime, swapRuntime, swapRuntimeLocked, none]
        simp only [hp]
        refine (outcome_undo (m := m) env _ none (core''.frame _ _ _ _) rfl rfl ?_ (fun _ _ _ there => there) nodup ha.touched starts).mono more
        exact ⟨rfl, rfl, rfl, rfl, rfl, rfl, .inl rfl, hsr, .inl rfl, core''.frame _ _ _ _⟩
      · rw [ok]
        refine ⟨rfl, fun name mem => (by cases mem), fun name mem _ l now => ?_, .inl rfl,
          core_released core.nonneg (GoMap.Pointers.empty _) rfl rfl, ?_⟩
        · rw [managed] at mem
          cases here : m.inbounds name with
          | managed l₀ =>
            have change := mem_disableChanges.mpr ⟨name, mem_sortedSetKeys.mpr mem, l₀, here, rfl⟩
            rw [changesEq] at change
            obtain ⟨_, hb, after⟩ := ha.1 _ change
            rw [here] at hb
            cases hb
            rw [show inbounds name = .managed l from now] at after
            cases after
            rfl
          | absent | plain =>
            have shape : (inbounds name).shape = _ := ha.touched.shape name
            rw [show inbounds name = .managed l from now, here] at shape
            cases shape
        · have hc : SameContent lib m { m with files := update m.files m.storePath files } :=
            attached.content_saved saves
          exact hc.keeps
    · rw [result]
      exact outcome_kept plain (Kept.refl core (.inr saved)) (fun _ _ _ there => there)
    · rw [result]
      have core' : Core lib { m with inbounds := inbounds } := core.frame _ _ _ _
      exact (outcome_stuck (m := m) env _ none core' failed rfl (fun _ _ _ there => there)).mono more

/-- The next configuration has the store of another path, or none is open. -/
theorem runtime_path_ne {path : String} (hc : Core lib m) (ho : path ≠ "") (hot : m.storePath ≠ path) :
    m.runtime.storePath ≠ path := by
  cases he : m.config with
  | none =>
    rw [hc.disabled he]
    exact fun hs => ho hs.symm
  | some config =>
    rw [(hc.published config he).runtime.header]
    exact hot

/-- The traffic of a store that was loaded, completed and saved again is still that of the counters. -/
theorem synced_prepared {saved : Store} (hc : Core lib m) (hs : Synced m.counters m.store m.runtime) (same : m.store = disk)
    (hv : ValidStore lib saved) (kept : ∀ name state, disk.listeners.lookup name = some state →
      ∃ state', saved.listeners.lookup name = some state' ∧ state'.users = state.users) : Synced m.counters saved m.runtime := by
  rw [synced_iff]
  intro p hp counter live
  obtain ⟨cell, _⟩ := Option.filter_eq_some_iff.mp live
  obtain ⟨ref, hk, _⟩ := Option.map_eq_some_iff.mp cell
  obtain ⟨config, he⟩ : ∃ config, m.config = some config := by
    cases he : m.config with
    | some config => exact ⟨config, rfl⟩
    | none =>
      rw [hc.disabled he] at hk
      cases hk
  obtain ⟨q, hq, key⟩ := (hc.published config he).runtime.keys p.key ref hk
  have id : q.user.id = p.user.id := congrArg TrafficKey.userID key
  have hi : q.inbound = p.inbound := congrArg TrafficKey.inbound key
  obtain ⟨ht, hh⟩ := mem_places.mp hq
  obtain ⟨ht', hh'⟩ := mem_places.mp hp
  rw [same] at ht
  obtain ⟨_, hl, hu⟩ := kept q.inbound q.state ht
  rw [hi, ht'] at hl
  cases hl
  have user : q.user = p.user := by
    refine inj_on_of_nodup_map (listener_ids_nodup hv.ids ht') ?_ (mem_of_getElem? hh') id
    rw [hu]
    exact mem_of_getElem? hh
  rw [← user]
  refine synced_iff.mp hs q hq counter ?_
  rw [key, user]
  exact live

/-- Once the changes are applied and the prepared store is saved, the listeners serve what it says. -/
theorem prepared_serving {saved : Store} {m' : Manager} (hp : Prepares config.managedListeners m.inbounds disk names prepared)
    (all : ∀ name, name ∈ config.managedListeners ∨ name ∈ m.managedListeners → name ∈ names)
    (ha : ChangesApplied prepared.changes m.inbounds inbounds)
    (hl : saved.listeners = (markApplied prepared.instances prepared.changes prepared.store).listeners)
    (he : m'.config = some config) (hst : m'.store = saved) (live : m'.inbounds = inbounds) :
    Serving m' ∧ ∀ name ∈ m.managedListeners, name ∉ m'.managedListeners → ∀ l, m'.inbounds name = .managed l → l.current = l.configured := by
  have hm : m'.managedListeners = config.managedListeners := by rw [managedListeners, he]; rfl
  obtain ⟨hs, hr⟩ := hp.applied ha
  constructor
  · intro name mem
    rw [hm] at mem
    obtain ⟨_, l, ht, hh, hc⟩ := hs name (all name (.inl mem)) mem
    obtain ⟨state', ht', _, hu⟩ := lookup_markApplied prepared.instances prepared.changes ht
    refine ⟨state', l, ?_, ?_, ?_⟩
    · rw [hst, hl]
      exact ht'
    · rw [live]
      exact hh
    · rw [hc, activeManagedUsers, activeManagedUsers, hu]
  · intro name mem ho l hh
    rw [hm] at ho
    rw [live] at hh
    exact hr name (all name (.inr mem)) ho l hh

/-- `Configure` with another store than before: the old one is retired, or all is undone. -/
theorem switchStore_outcome {b : Manager} {store : Store} (env : CallEnv)
    (core : Core lib b) (synced : Synced b.counters b.store b.runtime) (saved : Saved lib b)
    (kept : Kept lib m { b with inbounds := m.inbounds }) (same : b.config = m.config) (revisions : KeepsRevisions lib m b)
    (valid : ValidStore lib store) (loads : ∃ flag, loadStore lib (b.files config.storePath) = .ok (store, flag))
    (opened : config.storePath ≠ "") (other : b.storePath ≠ config.storePath)
    (nodup : (prepared.changes.map name).Nodup)
    (touched : Touched (prepared.changes.map name) m.inbounds b.inbounds)
    (starts : ∀ change ∈ prepared.changes, change.Starts m.inbounds)
    (serves : ∀ m' : Manager, m'.config = some config → m'.store = store → m'.inbounds = b.inbounds →
      Serving m' ∧ ∀ name ∈ m.managedListeners, name ∉ m'.managedListeners → ∀ l, m'.inbounds name = .managed l → l.current = l.configured) :
    Outcome lib (config.managedListeners ++ m.managedListeners) (some config) m (switchStore lib env config prepared store b) := by
  have path := runtime_path_ne core opened other
  have built : Built b.runtime _ b.counters store.places (buildRuntimeState (some config) config.storePath store b.runtime b.counters) :=
    buildRuntimeState_built core.pointers valid.ids
  generalize nextEq : buildRuntimeState (some config) config.storePath store b.runtime b.counters = next at built
  have nextPath : next.1.storePath = config.storePath := by rw [built.frame]
  have nonneg : next.2.Nonneg := built.nonneg core.nonneg fun p hp => valid.bytes hp
  have retired : syncTrafficStore next.2 b.store b.runtime = b.store := synced.grown core.pointers built.grown
  have swapped : b.swapRuntime next = { b with runtime := next.1, counters := next.2 } := by
    simp only [swapRuntime, swapRuntimeLocked, retired]
  have attached : b.storePath ≠ "" → Attached lib { b with runtime := next.1, counters := next.2 } := core.attached
  unfold switchStore
  simp only [nextEq, swapped]
  rcases persistOpen_cases { b with runtime := next.1, counters := next.2 } env.retire attached with ⟨_, e, error⟩ | ⟨files, old, ok, content, others⟩
  · -- the retired traffic cannot be saved: the runtime of the old store is built again
    rw [error]
    simp only [rebuiltRuntime, swapRuntimeLocked]
    obtain ⟨sameRuntime, core'⟩ := rebuilt_same next core synced saved nonneg built.pointers
      (fun _ same => other (by rw [← same, nextPath]))
    generalize buildRuntimeState b.config b.storePath b.store next.1 next.2 = restored at sameRuntime core'
    have undone : ∀ (files : String → StoreFiles) (e : CallError), e.rollbackFailed = false →
        (b.storePath ≠ "" → files b.storePath = b.files b.storePath) →
        KeepsRevisions lib b { b with files := files } →
        Outcome lib (config.managedListeners ++ m.managedListeners) (some config) m
          ((undo lib env config.managedListeners prepared.changes e
            { b with runtime := restored.1, counters := restored.2, files := files, dirty := true }).map id some) := by
      intro files e plain unchanged more
      have core'' : Core lib { b with runtime := restored.1, counters := restored.2, files := files } := core'.files unchanged
      refine outcome_undo env _ _ (core''.frame _ _ _ _) plain same ?_ (revisions.trans more) nodup touched starts
      refine ⟨kept.config, kept.userIndex, kept.storePath, kept.storeUnlock, kept.instances, rfl, kept.store, ?_, .inl rfl, core''.frame _ _ _ _⟩
      exact kept.runtime.trans sameRuntime
    rcases persistStore_cases lib env.replacement { b with runtime := restored.1, counters := restored.2 } config.storePath
      (syncTrafficStore restored.2 store next.1) with ⟨e', failed⟩ | ⟨files, again, ok, saves⟩
    · rw [failed]
      exact undone b.files _ rfl (fun _ => rfl) (fun _ _ _ there => there)
    · rw [ok]
      refine undone _ _ rfl (fun _ => update_of_ne other _ _) ?_
      refine keepsRevisions_saves rfl saves ?_
      intro disk flag loaded name state there
      obtain ⟨_, loads⟩ := loads
      rw [show loadStore lib (b.files config.storePath) = .ok (disk, flag) from loaded] at loads
      cases loads
      refine ⟨state.mapUsers (syncUser restored.2 next.1 name), ?_, rfl⟩
      rw [syncTrafficStore, lookup_mapUsers, there]
      rfl
  · rw [ok]
    obtain ⟨flag, loaded⟩ := loads
    let m' : Manager :=
      { b with
        runtime := next.1, counters := next.2, files := files, config := some config, store := store,
        userIndex := buildUserIndex store, storePath := config.storePath, storeUnlock := true, instances := prepared.instances,
        flushCancel := true }
    obtain ⟨serving, released⟩ := serves m' rfl rfl rfl
    have final : Core lib m' ∧ Saved lib m' := by
      refine core_built rfl nextEq.symm core.nonneg core.pointers (fun same => absurd same path) ⟨fun _ => opened, fun _ => rfl⟩ valid
        (buildUserIndex_indexes valid.ids) rfl opened ⟨flag, ?_⟩
      rw [← loaded]
      exact congrArg (loadStore lib) (others _ (fun same => other same.symm))
    have more : SameContent lib b { b with files := files } := content
    exact ⟨rfl, serving, released, final.2, final.1, revisions.trans more.keeps⟩

/-- `Configure` from `applyChanges` on. -/
theorem commitConfig_outcome {flag : Bool} (env : CallEnv)
    (core : Core lib m) (synced : Synced m.counters m.store m.runtime) (saved : Saved lib m) (opened : config.storePath ≠ "")
    (loads : loadStore lib (m.files config.storePath) = .ok (disk, flag))
    (prepares : Prepares config.managedListeners m.inbounds disk names prepared)
    (all : ∀ name, name ∈ config.managedListeners ∨ name ∈ m.managedListeners → name ∈ names) :
    Outcome lib (config.managedListeners ++ m.managedListeners) (some config) m
      (commitConfig lib env config (m.storeUnlock && m.storePath == config.storePath) prepared m) := by
  have unchanged : Kept lib m m := Kept.refl core (.inr saved)
  unfold commitConfig
  rcases applyChanges_cases lib env.listeners prepares.nodup prepares.starts with
    ⟨inbounds, result, applied⟩ | ⟨e, result, plain⟩ | ⟨inbounds, e, result, hf⟩
  · rw [result]
    simp only
    have core' : Core lib { m with inbounds := inbounds } := core.frame _ _ _ _
    rcases persistStore_cases lib env.commit { m with inbounds := inbounds } config.storePath
      (markApplied prepared.instances prepared.changes prepared.store) with ⟨e, hf⟩ | ⟨files, store, ok, saves⟩
    · rw [hf]
      exact outcome_undo env _ _ core' rfl rfl unchanged (fun _ _ _ ht => ht) prepares.nodup applied.touched prepares.starts
    · rw [ok]
      have listeners : store.listeners = (markApplied prepared.instances prepared.changes prepared.store).listeners := by rw [saves.written]
      have states : ∀ name state, disk.listeners.lookup name = some state → ∃ state',
          (markApplied prepared.instances prepared.changes prepared.store).listeners.lookup name = some state' ∧
            state'.revision = state.revision ∧ state'.users = state.users := fun name state ht =>
        lookup_markApplied prepared.instances prepared.changes (prepares.kept name state ht)
      have revisions : KeepsRevisions lib m { m with inbounds := inbounds, files := update m.files config.storePath files } := by
        refine keepsRevisions_saves rfl saves ?_
        intro _ _ loads' name state ht
        rw [loads] at loads'
        cases loads'
        obtain ⟨state', ht', revision, _⟩ := states name state ht
        exact ⟨state', ht', revision⟩
      obtain ⟨flag', hl⟩ := saves.loads
      have serves : ∀ m' : Manager, m'.config = some config → m'.store = store → m'.inbounds = inbounds → Serving m' ∧ _ :=
        fun m' => prepared_serving prepares all applied listeners
      simp only
      split
      next hss =>
        rw [Bool.and_eq_true, beq_iff_eq] at hss
        have hlo := saved.loads synced (core.unlock.mp hss.1)
        have own : m.store = disk := by
          obtain ⟨_, hlo⟩ := hlo
          rw [hss.2, loads] at hlo
          cases hlo
          rfl
        have traffic : Synced m.counters store m.runtime := by
          refine synced_prepared core synced own saves.valid fun name state ht => ?_
          obtain ⟨state', ht', _, users⟩ := states name state ht
          exact ⟨state', listeners ▸ ht', users⟩
        let m₂ : Manager :=
          { m with
            inbounds := inbounds, files := update m.files config.storePath files, config := some config, store := store,
            userIndex := buildUserIndex store, storePath := config.storePath, instances := prepared.instances }
        have hl₂ : loadStore lib (m₂.files m₂.storePath) = .ok (m₂.store, flag') := by
          rw [← hl]
          exact congrArg (loadStore lib) (update_self _ _ _)
        have unlock : m₂.storeUnlock = true ↔ m₂.storePath ≠ "" := ⟨fun _ => opened, fun _ => hss.1⟩
        obtain ⟨⟨_, counters, final⟩, hc₂, hs₂⟩ := core_publish (m := m₂) rfl core.nonneg core.pointers traffic unlock saves.valid
          (buildUserIndex_indexes saves.valid.ids) rfl opened ⟨flag', hl₂⟩
        rw [final] at hc₂ hs₂ ⊢
        obtain ⟨hs, hr⟩ := serves
          { m with
            inbounds := inbounds, files := update m.files config.storePath files, config := some config, store := store,
            counters := counters, flushCancel := true } rfl rfl rfl
        exact ⟨rfl, hs, hr, hs₂, hc₂.frame _ _ _ _, revisions⟩
      next hos =>
        have ho : m.storePath ≠ config.storePath := by
          intro same
          refine hos ?_
          rw [Bool.and_eq_true, beq_iff_eq]
          exact ⟨core.unlock.mpr (same ▸ opened), same⟩
        have he : update m.files config.storePath files m.storePath = m.files m.storePath := update_of_ne ho _ _
        have hcb : Core lib { m with inbounds := inbounds, files := update m.files config.storePath files } :=
          core'.files (fun _ => he)
        have hsb : Saved lib { m with files := update m.files config.storePath files } := by
          rcases saved with hc | ⟨flag, loads⟩
          · exact .inl hc
          · exact .inr ⟨flag, by rw [← loads]; exact congrArg (loadStore lib) he⟩
        refine switchStore_outcome env hcb synced hsb ?_ rfl revisions saves.valid ⟨flag', ?_⟩ opened ho prepares.nodup applied.touched
          prepares.starts serves
        · exact ⟨rfl, rfl, rfl, rfl, rfl, rfl, .inl rfl, SameRuntime.refl _, .inr hsb, core.files (fun _ => he)⟩
        · rw [← hl]
          exact congrArg (loadStore lib) (update_self _ _ _)
  · rw [result]
    exact outcome_kept plain unchanged (fun _ _ _ ht => ht)
  · rw [result]
    have core' : Core lib { m with inbounds := inbounds } := core.frame _ _ _ _
    exact outcome_stuck env _ _ core' hf rfl (fun _ _ _ ht => ht)

theorem validateConfig_storePath (h : validateConfig lib config = .ok ()) : config.storePath ≠ "" := by
  unfold validateConfig at h
  split at h
  · cases h
  · split at h
    · cases h
    next ht => exact ht

theorem reconfigure_outcome (env : CallEnv) (config : Config) (hc : Core lib m) (hs : Synced m.counters m.store m.runtime)
    (hsa : Saved lib m) :
    Outcome lib (config.managedListeners ++ m.managedListeners) (some config) m (m.reconfigure lib env config) := by
  have hr : ∀ e : CallError, e.rollbackFailed = false →
      Outcome lib (config.managedListeners ++ m.managedListeners) (some config) m (m, some e) :=
    fun e hpl => outcome_kept hpl (Kept.refl hc (.inr hsa)) (fun _ _ _ ht => ht)
  unfold reconfigure
  split
  next e _ => exact hr _ rfl
  next hv =>
    simp only
    split
    next hf => exact hr _ (openStore_error hf)
    next store ho =>
      obtain ⟨_, hl⟩ := openStore_eq_ok ho
      split
      next hf => exact hr _ (prepareListeners_error hf)
      next prepared hd =>
        have hn : ([] ++ sortedSetKeys (config.managedListeners ++ m.managedListeners)).Nodup := nodup_sortedSetKeys _
        have hp := prepareListeners_prepares (prepares_start _ _ _) hn hd
        split
        next e _ => exact hr _ rfl
        · refine commitConfig_outcome env hc hs hsa (validateConfig_storePath hv) hl hp fun name mem => ?_
          rw [nil_append, mem_sortedSetKeys, mem_append]
          exact mem

/-- What `Configure` does. -/
theorem configure_outcome (env : CallEnv) (config : Option Config) (hc : Core lib m) (hd : m.dirty = true ∨ Saved lib m) :
    Outcome lib (config.elim [] Config.managedListeners ++ m.managedListeners) config m (m.configure lib env config) := by
  unfold configure
  rcases saveTraffic_cases env hc hd with ⟨e, he⟩ | ⟨m₁, ok, hs⟩
  · rw [he]
    refine outcome_kept rfl ?_ (fun _ _ _ ht => ht)
    exact ⟨rfl, rfl, rfl, rfl, rfl, rfl, .inr ⟨m.store.generation, rfl⟩, SameRuntime.refl _, .inl rfl, hc.sync.frame _ _ _ _⟩
  · rw [ok]
    have hm : m₁.managedListeners = m.managedListeners := by
      rw [managedListeners, hs.kept.config, managedListeners]
    cases config with
    | none =>
      have ha := disableLocked_outcome env hs.core hs.synced hs.saved
      rw [hm] at ha
      exact hs.outcome ha
    | some config =>
      have ha := reconfigure_outcome env config hs.core hs.synced hs.saved
      rw [hm] at ha
      exact hs.outcome ha

end Manager

end AsterCore.Aster
