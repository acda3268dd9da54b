import AsterCore.AsterReconfigure

namespace AsterCore.Aster

open List Option Function Manager Int64

section Steps

variable {lib : Library} {m m' : Manager}

theorem serving_of_disabled (hd : m.config = none) : Serving m := by
  intro _ mem
  rw [managedListeners, hd] at mem
  cases mem

theorem Kept.inv (hk : Kept lib m m') (hs : Serving m) : Inv lib m' := by
  refine ⟨hk.core, fun name mem => ?_, hk.dirty⟩
  rw [managedListeners, hk.config] at mem
  obtain ⟨state, l, ht, hh, hc⟩ := hs name mem
  rw [← hk.inbounds] at hh
  rcases hk.store with same | ⟨generation, same⟩
  · exact ⟨state, l, same ▸ ht, hh, hc⟩
  · refine ⟨state.mapUsers (syncUser m.counters m.runtime name), l, ?_, hh, ?_⟩
    · rw [same]
      show (m.store.mapUsers (syncUser m.counters m.runtime)).listeners.lookup name = _
      rw [lookup_mapUsers, ht]
      rfl
    · rw [activeManagedUsers_mapUsers (syncUser_trafficOnly _ _)]
      exact hc

theorem ClosedDown.inv {names : List String} (hc : ClosedDown lib names m) : Inv lib m :=
  ⟨hc.core, serving_of_disabled hc.config, hc.dirty⟩

theorem Mutated.inv {inbound : String} {expectedRevision : Int64} (hm : Mutated lib inbound expectedRevision m m') : Inv lib m' :=
  ⟨hm.core, hm.serving, .inr hm.saved⟩

theorem Outcome.inv {names : List String} {config : Option Config} {result : Manager × Option CallError} (serving : Serving m)
    (h : Outcome lib names config m result) : Inv lib result.1 ∧ KeepsRevisions lib m result.1 := by
  unfold Outcome at h
  split at h
  · exact ⟨⟨h.core, h.serving, .inr h.saved⟩, h.revisions⟩
  next e _ =>
    refine ⟨?_, h.1⟩
    have hr := h.2
    split at hr
    · exact hr.inv
    · exact hr.inv serving

namespace Manager

theorem flush_inv (env : CallEnv) (inv : Inv lib m) : Inv lib (m.flush lib env).1 ∧ KeepsRevisions lib m (m.flush lib env).1 := by
  have same : KeepsRevisions lib m m := fun _ _ _ ht => ht
  have hr : ∀ m' : Manager, Core lib m' → m'.config = none → Inv lib m'.stopFlusherLocked.releaseStoreLocked := by
    intro _ core hd
    exact ⟨core_released core.nonneg core.pointers hd (core.disabled hd), serving_of_disabled hd, .inr (.inl rfl)⟩
  unfold flush
  split
  next dirty =>
    split
    · exact ⟨inv, same⟩
    next ho =>
      have core : Core lib ({ m with dirty := false } : Manager).syncTrafficLocked := inv.core.sync.frame _ _ _ _
      have hs := inv.serving.sync
      rcases persist_cases lib env.before ({ m with dirty := false } : Manager).syncTrafficLocked with ⟨e, he⟩ | ⟨files, saved, ok, hsa⟩
      · rw [he]
        exact ⟨⟨core.frame _ _ _ _, hs, .inl rfl⟩, same⟩
      · rw [ok]
        have hc : SameContent lib m
            { ({ m with dirty := false } : Manager).syncTrafficLocked with files := update m.files m.storePath files, store := saved } :=
          (core.attached ho).content_saved hsa
        refine ⟨?_, fun path name revision ht => ?_⟩
        · simp only
          split
          next hd => exact hr _ (core.saved hsa) hd
          · refine ⟨core.saved hsa, fun name mem => ?_, .inr (saved_of_saves (syncTrafficStore_idem _ _ _) hsa)⟩
            obtain ⟨state, l, ht, hh, hcu⟩ := hs name mem
            refine ⟨state, l, ?_, hh, hcu⟩
            rw [hsa.written]
            exact ht
        · have hk := hc.keeps path name revision ht
          simp only
          split
          · exact hk
          · exact hk
  · refine ⟨?_, fun path name revision ht => ?_⟩
    · simp only
      split
      next hl => exact hr m inv.core hl.1
      · exact inv
    · simp only
      split
      · exact ht
      · exact ht

theorem failClosed_inv (env : CallEnv) (names : List String) (inv : Inv lib m) :
    Inv lib (m.failClosed lib env names).1 ∧ KeepsRevisions lib m (m.failClosed lib env names).1 := by
  unfold failClosed
  rcases saveTraffic_cases env inv.core inv.dirty with ⟨e, error⟩ | ⟨m₁, ok, settled⟩
  · rw [error]
    have core : Core lib { m.syncTrafficLocked with dirty := true } := inv.core.sync.frame _ _ _ _
    obtain ⟨closed, content⟩ := failClosedStateLocked_spec core env names
    exact ⟨closed.inv, content.keeps⟩
  · rw [ok]
    obtain ⟨closed, content⟩ := failClosedStateLocked_spec settled.core env names
    exact ⟨closed.inv, settled.content.keeps.trans content.keeps⟩

theorem add_generation (heap : CounterHeap) (ref : Nat) (upload download : Int64) (other : Nat) :
    ((heap.add ref upload download).cell other).generation = (heap.cell other).generation := by
  simp only [CounterHeap.add]
  by_cases same : other = ref
  · rw [same, update_self]
    split <;> split <;> rfl
  · rw [update_of_ne same]

theorem addTraffic_nonneg {current value : Int64} (nonneg : 0 ≤ current.toInt) (positive : 0 < value) :
    0 ≤ (addTraffic current value).toInt := by
  rw [lt_iff_toInt_lt] at positive
  have zero : (0 : Int64).toInt = 0 := rfl
  have max : maxValue.toInt = 2 ^ 63 - 1 := toInt_maxValue
  rw [addTraffic_toInt nonneg (by omega), max]
  omega

theorem add_nonneg {heap : CounterHeap} (nonneg : heap.Nonneg) (ref : Nat) (upload download : Int64) :
    (heap.add ref upload download).Nonneg := by
  intro other
  simp only [CounterHeap.add]
  by_cases same : other = ref
  · obtain ⟨up, down⟩ := nonneg ref
    rw [same, update_self]
    by_cases sent : 0 < upload
    · by_cases received : 0 < download
      · simp only [if_pos sent, if_pos received]
        exact ⟨addTraffic_nonneg up sent, addTraffic_nonneg down received⟩
      · simp only [if_pos sent, if_neg received]
        exact ⟨addTraffic_nonneg up sent, down⟩
    · by_cases received : 0 < download
      · simp only [if_neg sent, if_pos received]
        exact ⟨up, addTraffic_nonneg down received⟩
      · simp only [if_neg sent, if_neg received]
        exact ⟨up, down⟩
  · rw [update_of_ne same]
    exact nonneg other

theorem recordTraffic_inv (inbound userID : String) (upload download : Int64) (inv : Inv lib m) :
    Inv lib (m.recordTraffic inbound userID upload download) ∧ KeepsRevisions lib m
    (m.recordTraffic inbound userID upload download) := by
  unfold recordTraffic
  split
  · exact ⟨inv, fun _ _ _ there => there⟩
  · split
    · exact ⟨inv, fun _ _ _ there => there⟩
    next ref _ =>
      refine ⟨⟨?_, inv.serving, .inl rfl⟩, fun _ _ _ there => there⟩
      refine ⟨add_nonneg inv.core.nonneg ref upload download, inv.core.pointers, inv.core.disabled, inv.core.unlock,
        fun config enabled => ?_, inv.core.attached⟩
      have p := inv.core.published config enabled
      exact ⟨p.valid, p.index, p.runtime.keep (add_generation m.counters ref upload download), p.path, p.openStore⟩

/-- The request succeeds: the path of the store, the listener and the revision that it expected. -/
def succeeds (lib : Library) (m : Manager) : Op → Option (String × String × Int64)
  | .request mutation expectedRevision env =>
    match (m.request lib env mutation expectedRevision).2 with
    | .ok _ => (m.inboundOf mutation).map fun inbound => (m.storePath, inbound, expectedRevision)
    | .error _ => none
  | _ => none

theorem perform_inv (inv : Inv lib m) (op : Op) :
    Inv lib (m.perform lib op) ∧
      (m.succeeds lib op = none ∧ KeepsRevisions lib m (m.perform lib op) ∨
        ∃ inbound revision, m.succeeds lib op = some (m.storePath, inbound, revision) ∧ Mutated lib inbound revision m (m.perform lib op)) := by
  cases op with
  | configure config env =>
    obtain ⟨kept, hr⟩ := (configure_outcome env config inv.core inv.dirty).inv inv.serving
    exact ⟨kept, .inl ⟨rfl, hr⟩⟩
  | flush env =>
    obtain ⟨kept, hr⟩ := flush_inv env inv
    exact ⟨kept, .inl ⟨rfl, hr⟩⟩
  | failClosed names env =>
    obtain ⟨kept, hr⟩ := failClosed_inv env names inv
    exact ⟨kept, .inl ⟨rfl, hr⟩⟩
  | recordTraffic inbound userID upload download =>
    obtain ⟨kept, hr⟩ := recordTraffic_inv inbound userID upload download inv
    exact ⟨kept, .inl ⟨rfl, hr⟩⟩
  | list =>
    simp only [perform]
    split
    · exact ⟨inv, .inl ⟨rfl, fun _ _ _ there => there⟩⟩
    · exact ⟨(Kept.sync inv).inv inv.serving, .inl ⟨rfl, fun _ _ _ there => there⟩⟩
  | request mutation expectedRevision env =>
    simp only [perform, succeeds]
    rcases request_cases inv env mutation expectedRevision with
      ⟨m', e, hre, _, kept, hf, _⟩ | ⟨m', e, hre, _, hcl, hc⟩ | ⟨m', reply, hre, inbound, ht, hm, _⟩
    · rw [hre]
      refine ⟨kept.inv inv.serving, .inl ⟨rfl, fun path name revision there => ?_⟩⟩
      rw [hf]
      exact there
    · rw [hre]
      exact ⟨hcl.inv, .inl ⟨rfl, hc.keeps⟩⟩
    · rw [hre]
      refine ⟨hm.inv, .inr ⟨inbound, expectedRevision, ?_, hm⟩⟩
      rw [ht]
      rfl

end Manager

end Steps

section Runs

variable {lib : Library}

theorem inv_new (files : String → StoreFiles) (inbounds : Inbounds) : Inv lib (new files inbounds) := by
  refine ⟨⟨fun ref => ?_, GoMap.Pointers.empty _, fun _ => rfl, ⟨nofun, absurd rfl⟩, nofun,
    absurd rfl⟩, serving_of_disabled rfl, .inr (.inl rfl)⟩
  exact ⟨le_refl 0, le_refl 0⟩

theorem run_inv {m : Manager} (inv : Inv lib m) (ops : List Op) : Inv lib (m.run lib ops) := by
  induction ops generalizing m with
  | nil => exact inv
  | cons op _ ih => exact ih (perform_inv inv op).1

end Runs

/-- After any sequence of calls, while management is enabled, the store is valid, the index is the one that would be built
from it and finds what the linear search finds, and the runtime has the inverse of the subscriptions and the users of the managed
listeners with the revision of their listener. -/
theorem views_agree (lib : Library) (files : String → StoreFiles) (inbounds : Inbounds) (ops : List Op) (config : Config)
    (enabled : ((Manager.new files inbounds).run lib ops).config = some config) :
    let m := (Manager.new files inbounds).run lib ops
    validateStore lib m.store = .ok () ∧
      (∀ id, m.userIndex.lookup id = (buildUserIndex m.store).lookup id) ∧
      (∀ id, indexedUser m.userIndex m.store id = findUser m.store id) ∧
      (∀ token id, m.runtime.subscriptions.lookup token = some id ↔ m.store.subscriptions.lookup id = some token) ∧
      ∀ id revision user, (m.runtime.users.lookup id).map RuntimeUser.withoutTraffic = some (revision, user) ↔
        ∃ inbound ∈ config.managedListeners, ∃ state, m.store.listeners.lookup inbound = some state ∧ state.revision = revision ∧
          ∃ stored ∈ state.users, stored.id = id ∧ stored.withoutTraffic = user := by
  intro m
  have p := (run_inv (inv_new files inbounds) ops).core.published config enabled
  refine ⟨validateStore_eq_ok.mpr p.valid, p.index.lookup_eq (buildUserIndex_indexes p.valid.ids), indexedUser_eq_findUser p.valid.ids p.index,
    p.runtime.subscriptions, fun id revision user => ?_⟩
  rw [p.runtime.users]
  constructor
  · rintro ⟨place, hp, managed, rfl, hs⟩
    cases hs
    obtain ⟨ht, hh⟩ := mem_places.mp hp
    exact ⟨place.inbound, managed, place.state, ht, rfl, place.user, mem_of_getElem? hh, rfl, rfl⟩
  · rintro ⟨_, managed, _, ht, rfl, _, mem, rfl, rfl⟩
    obtain ⟨_, hp⟩ := places_of_mem ht mem
    exact ⟨_, hp, managed, rfl, rfl⟩

section Sample

def sampleLibrary : Library where
  toStdlib := asciiStdlib (fun _ => "") (fun _ => "")
  uuidMap := id
  encodedLength _ := 0
  publicURL _ := true

def sampleUser : User := { id := "u", inbound := "in", protocol := "vless", name := "alice", uuid := "1" }

def sampleStore : Store where
  listeners := AList.singleton "in" { id := "l", name := "in", protocol := "vless", users := [sampleUser], revision := 5 }
  subscriptions := AList.singleton "u" "AAAAAAAAAAAAAAAAAAAAAAAAAAAAAAAAAAAAAAAAAAA"

def sampleConfig : Config := { secret := "0123456789abcdef0123456789abcdef", storePath := "s", managedListeners := ["in"] }

def sampleInbounds : Inbounds := fun name => if name = "in" then .managed { identity := 1, protocol := "vless" } else .absent

def sampleManager : Manager := Manager.new (fun _ => { primary := .holds sampleStore }) sampleInbounds

def sampleOps : List Op := [.configure (some sampleConfig) {}, .recordTraffic "in" "u" 7 0]

end Sample

theorem views_agree_sample :
    let m := sampleManager.run sampleLibrary sampleOps
    m.config = some sampleConfig ∧ ∀ id, indexedUser m.userIndex m.store id = findUser m.store id := by
  intro m
  have he : m.config = some sampleConfig := by decide +kernel
  exact ⟨he, (views_agree sampleLibrary _ sampleInbounds sampleOps sampleConfig he).2.2.1⟩

/-- After any sequence of calls, a request or a `Configure` succeeds, and then every managed listener serves the enabled users of
its state, which is what the request makes of it, and the listeners that were left serve their configured users; or it fails and all is as before up to synchronized traffic;
or a step of the rollback fails too, and then management is disabled and every listener of the old and the new set is failed
closed. -/
theorem calls_all_or_nothing (lib : Library) (files : String → StoreFiles) (inbounds : Inbounds) (ops : List Op) (env : CallEnv) :
    let m := (Manager.new files inbounds).run lib ops
    (∀ mutation expectedRevision,
      match m.request lib env mutation expectedRevision with
      | (m', .ok _) => m'.config = m.config ∧ Serving m' ∧
          ∃ inbound, m.inboundOf mutation = some inbound ∧ Mutated lib inbound expectedRevision m m' ∧ Applies mutation inbound m m'
      | (m', .error e) => if e.rollbackFailed then ClosedDown lib m.managedListeners m' else Kept lib m m') ∧
    ∀ config,
      match m.configure lib env config with
      | (m', none) => m'.config = config ∧ Serving m' ∧
          ∀ name ∈ m.managedListeners, name ∉ m'.managedListeners → ∀ l, m'.inbounds name = .managed l → l.current = l.configured
      | (m', some e) =>
        if e.rollbackFailed then ClosedDown lib (config.elim [] Config.managedListeners ++ m.managedListeners) m' else Kept lib m m' := by
  intro m
  have inv : Inv lib m := run_inv (inv_new files inbounds) ops
  constructor
  · intro mutation expectedRevision
    rcases request_cases inv env mutation expectedRevision with
      ⟨m', e, result, hp, hk, _⟩ | ⟨m', e, result, failed, closed, _⟩ | ⟨m', reply, result, inbound, place, hm, applied⟩
    · rw [result]
      simp only [hp]
      exact hk
    · rw [result]
      simp only [failed]
      exact closed
    · rw [result]
      exact ⟨hm.config, hm.serving, inbound, place, hm, applied⟩
  · intro config
    have ho := configure_outcome env config inv.core inv.dirty
    unfold Outcome at ho
    generalize m.configure lib env config = result at ho
    obtain ⟨_, failed⟩ := result
    cases failed with
    | none => exact ⟨ho.config, ho.serving, ho.released⟩
    | some => exact ho.2

/-- After any sequence of calls, a restart would load a store that differs from the one in memory in its traffic only, and not
even there unless `dirty` is set; and every managed listener serves the enabled users that this store has for it. -/
theorem restart_loads_what_is_served (lib : Library) (files : String → StoreFiles) (inbounds : Inbounds) (ops : List Op) :
    let m := (Manager.new files inbounds).run lib ops
    (m.storePath = "" ∧ m.managedListeners = []) ∨
      ∃ disk flag, loadStore lib (m.files m.storePath) = .ok (disk, flag) ∧ disk.withoutTraffic = m.store.withoutTraffic ∧
        (m.dirty = false → disk = syncTrafficStore m.counters m.store m.runtime) ∧
        ∀ name ∈ m.managedListeners, ∃ state l, disk.listeners.lookup name = some state ∧ m.inbounds name = .managed l ∧
          l.current = activeManagedUsers state := by
  intro m
  obtain ⟨hc, hs, hd⟩ : Inv lib m := run_inv (inv_new files inbounds) ops
  by_cases hp : m.storePath = ""
  · refine .inl ⟨hp, ?_⟩
    cases he : m.config with
    | none => rw [managedListeners, he, elim_none]
    | some config => exact absurd hp (hc.published config he).openStore
  obtain ⟨disk, flag, hl, ht⟩ := hc.attached hp
  refine .inr ⟨disk, flag, hl, ht, fun hn => ?_, fun name mem => ?_⟩
  · obtain hy | hy | ⟨_, hy⟩ := hd
    · rw [hn] at hy
      cases hy
    · exact absurd hy hp
    · rw [hl] at hy
      cases hy
      rfl
  · obtain ⟨state, l, hst, hi, hu⟩ := hs name mem
    have ho : TrafficOnly fun _ => User.withoutTraffic := fun _ _ => rfl
    have he := congrArg (fun store : Store => store.listeners.lookup name) ht
    simp only [Store.withoutTraffic, lookup_mapUsers, hst, map_some] at he
    obtain ⟨state', hst', he⟩ := map_eq_some_iff.mp he
    refine ⟨state', l, hst', hi, ?_⟩
    rw [hu, ← activeManagedUsers_mapUsers ho name state, ← he, activeManagedUsers_mapUsers ho name state']

section Revisions

variable {lib : Library} {m m' : Manager}

theorem Attached.revisionAt (ha : Attached lib m) (name : String) :
    revisionAt lib (m.files m.storePath) name = (m.store.listeners.lookup name).map ListenerState.revision := by
  obtain ⟨disk, _, hlo, hs⟩ := ha
  have hl' := lookup_mapUsers (fun _ => User.withoutTraffic) m.store name
  unfold Aster.revisionAt content
  rw [hlo]
  simp only [Except.map, Except.toOption, bind_some]
  rw [hs, show ({ m.store.withoutTraffic with generation := 0 } : Store).listeners.lookup name = _ from hl', Option.map_map]
  rfl

variable {expectedRevision : Int64} {inbound : String}

theorem Mutated.revision (h : Mutated lib inbound expectedRevision m m') (hc : Core lib m) :
    revisionAt lib (m.files m.storePath) inbound = some expectedRevision ∧
      ∃ next, revisionAt lib (m'.files m.storePath) inbound = some next ∧ expectedRevision < next := by
  obtain ⟨_, state, ht, rfl, now, hi⟩ := h.listener
  have ha := hc.attached h.opened
  have ha' := h.core.attached (h.storePath.symm ▸ h.opened)
  refine ⟨by rw [ha.revisionAt, ht]; rfl, state.revision, ?_, hi⟩
  rw [← h.storePath, ha'.revisionAt, now]
  rfl

variable {name path : String}

theorem Mutated.revision_other (h : Mutated lib inbound expectedRevision m m')
    (hc : Core lib m) (ho : path ≠ m.storePath ∨ name ≠ inbound) :
    revisionAt lib (m'.files path) name = revisionAt lib (m.files path) name := by
  by_cases hs : path = m.storePath
  · have ne := ho.resolve_left (fun hap => hap hs)
    have ha := hc.attached h.opened
    have ha' := h.core.attached (h.storePath.symm ▸ h.opened)
    have hk := congrArg (Option.map ListenerState.revision) (h.others name ne)
    rw [Option.map_map, Option.map_map] at hk
    rw [hs, ha.revisionAt, ← h.storePath, ha'.revisionAt]
    exact hk
  · rw [h.files path hs]

def Manager.successes (lib : Library) (m : Manager) : List Op → List (String × String × Int64)
  | [] => []
  | op :: ops => (m.succeeds lib op).toList ++ (m.perform lib op).successes lib ops

variable {revision : Int64}

theorem perform_revision (inv : Inv lib m) (op : Op) (ht : revisionAt lib (m.files path) name = some revision) :
    (m.succeeds lib op ≠ some (path, name, revision) ∧ revisionAt lib ((m.perform lib op).files path) name = some revision) ∨
      m.succeeds lib op = some (path, name, revision) ∧
        ∃ next, revisionAt lib ((m.perform lib op).files path) name = some next ∧ revision < next := by
  rcases (perform_inv inv op).2 with ⟨hn, hk⟩ | ⟨inbound, expected, succeeded, hm⟩
  · left
    rw [hn]
    exact ⟨nofun, hk path name revision ht⟩
  · rw [succeeded]
    by_cases mine : path = m.storePath ∧ name = inbound
    · obtain ⟨rfl, rfl⟩ := mine
      obtain ⟨hb, ha⟩ := hm.revision inv.core
      rw [hb] at ht
      cases ht
      exact .inr ⟨rfl, ha⟩
    · left
      rw [not_and_or] at mine
      rw [hm.revision_other inv.core mine]
      refine ⟨fun hs => ?_, ht⟩
      cases hs
      exact mine.elim (fun ne => ne rfl) (fun ne => ne rfl)

theorem revisionAt_perform_le (inv : Inv lib m) (op : Op) (ht : revisionAt lib (m.files path) name = some revision) :
    ∃ next, revisionAt lib ((m.perform lib op).files path) name = some next ∧ revision ≤ next := by
  rcases perform_revision inv op ht with ⟨_, hs⟩ | ⟨_, next, ha, hi⟩
  · exact ⟨revision, hs, le_iff_toInt_le.mpr le_rfl⟩
  · refine ⟨next, ha, ?_⟩
    rw [lt_iff_toInt_lt] at hi
    rw [le_iff_toInt_le]
    omega

theorem le_successes (inv : Inv lib m) (ops : List Op) {expected : Int64}
    (ht : revisionAt lib (m.files path) name = some revision) (mem : (path, name, expected) ∈ m.successes lib ops) :
    revision ≤ expected := by
  induction ops generalizing m revision with
  | nil => cases mem
  | cons op _ ih =>
    obtain ⟨inv', he⟩ := perform_inv inv op
    rcases mem_append.mp mem with now | hl
    · rcases he with ⟨hn, _⟩ | ⟨inbound, expected', succeeded, hm⟩
      · rw [hn] at now
        cases now
      · rw [succeeded, toList_some, mem_singleton] at now
        cases now
        rw [(hm.revision inv.core).1] at ht
        cases ht
        exact le_iff_toInt_le.mpr le_rfl
    · obtain ⟨_, ha, le⟩ := revisionAt_perform_le inv op ht
      have hr := ih inv' ha hl
      rw [le_iff_toInt_le] at le hr ⊢
      omega

theorem successes_nodup (inv : Inv lib m) (ops : List Op) : (m.successes lib ops).Nodup := by
  induction ops generalizing m with
  | nil => exact nodup_nil
  | cons op ops ih =>
    obtain ⟨inv', he⟩ := perform_inv inv op
    unfold successes
    rcases he with ⟨hn, _⟩ | ⟨inbound, expected, succeeded, hm⟩
    · rw [hn]
      exact ih inv'
    · rw [succeeded, toList_some, singleton_append, nodup_cons]
      refine ⟨fun ha => ?_, ih inv'⟩
      obtain ⟨_, _, haf, hi⟩ := hm.revision inv.core
      have le := le_successes inv' ops haf ha
      rw [lt_iff_toInt_lt] at hi
      rw [le_iff_toInt_le] at le
      omega

theorem Manager.mutateListenerLocked_conflict {env : CallEnv} {mutation : Mutation}
    {state : ListenerState} (ht : m.store.listeners.lookup inbound = some state) (hs : state.revision ≠ expectedRevision) :
    ∃ e, m.mutateListenerLocked lib env inbound expectedRevision mutation = (m, .error e) := by
  unfold mutateListenerLocked
  split
  · exact ⟨_, rfl⟩
  · rw [ht]
    simp only
    rw [if_pos hs]
    exact ⟨_, rfl⟩

theorem Manager.request_conflict {env : CallEnv} {mutation : Mutation} {state : ListenerState}
    (ht : m.inboundOf mutation = some inbound) (hth : m.store.listeners.lookup inbound = some state)
    (hs : state.revision ≠ expectedRevision) : ∃ e, m.request lib env mutation expectedRevision = (m, .error e) := by
  unfold request
  split
  · exact ⟨_, rfl⟩
  · rw [ht]
    simp only
    split
    · exact ⟨_, rfl⟩
    · obtain ⟨e, hr⟩ := mutateListenerLocked_conflict hth hs
      rw [hr]
      exact ⟨e, rfl⟩

end Revisions

/-- In any sequence of calls, no two requests that succeed have the same store, listener and expected revision. A revision in the
files changes with a request that succeeds, which expected it and leaves a later one, and with nothing else. A request with another
revision than the current one changes nothing; one that fails later leaves the store as it is up to synchronized traffic, or
management is disabled, and the files keep their content up to traffic and generation. -/
theorem revisions_optimistic (lib : Library) (files : String → StoreFiles) (inbounds : Inbounds) (ops : List Op) :
    let m := (Manager.new files inbounds).run lib ops
    ((Manager.new files inbounds).successes lib ops).Nodup ∧
      (∀ op path name revision, revisionAt lib (m.files path) name = some revision →
        (m.succeeds lib op ≠ some (path, name, revision) ∧ revisionAt lib ((m.perform lib op).files path) name = some revision) ∨
          m.succeeds lib op = some (path, name, revision) ∧
            ∃ next, revisionAt lib ((m.perform lib op).files path) name = some next ∧ revision < next) ∧
      (∀ op path name revision, m.succeeds lib op = some (path, name, revision) →
        path = m.storePath ∧ revisionAt lib (m.files path) name = some revision) ∧
      (m.config ≠ none → ∀ name,
        revisionAt lib (m.files m.storePath) name = (m.store.listeners.lookup name).map ListenerState.revision) ∧
      ∀ mutation expectedRevision env e, (m.request lib env mutation expectedRevision).2 = .error e →
        (∀ path, content lib ((m.request lib env mutation expectedRevision).1.files path) = content lib (m.files path)) ∧
          ((m.request lib env mutation expectedRevision).1.config = none ∨
            (m.request lib env mutation expectedRevision).1.store.withoutTraffic = m.store.withoutTraffic) ∧
          ∀ inbound state, m.inboundOf mutation = some inbound → m.store.listeners.lookup inbound = some state →
            state.revision ≠ expectedRevision → (m.request lib env mutation expectedRevision).1 = m := by
  intro m
  have inv : Inv lib m := run_inv (inv_new files inbounds) ops
  refine ⟨successes_nodup (inv_new files inbounds) ops, fun op path name revision => perform_revision inv op, ?_, ?_, ?_⟩
  · intro op _ _ _ hd
    rcases (perform_inv inv op).2 with ⟨none, _⟩ | ⟨inbound, expected, succeeded, hm⟩
    · rw [none] at hd
      cases hd
    · rw [succeeded] at hd
      cases hd
      exact ⟨rfl, (hm.revision inv.core).1⟩
  · intro he name
    obtain ⟨config, he⟩ := ne_none_iff_exists'.mp he
    exact (inv.core.attached (inv.core.published config he).openStore).revisionAt name
  · intro mutation expectedRevision env e hf
    refine ⟨?_, ?_, fun inbound state ht hth hs => ?_⟩
    · intro path
      rcases request_cases inv env mutation expectedRevision with
        ⟨m', e, hr, _, _, same, _⟩ | ⟨m', e, hr, _, _, content⟩ | ⟨m', reply, hr, _⟩
      · rw [hr]
        exact congrArg (fun files => content lib (files path)) same
      · rw [hr]
        exact content path
      · rw [hr] at hf
        cases hf
    · rcases request_cases inv env mutation expectedRevision with
        ⟨m', e, hr, _, _, _, store⟩ | ⟨m', e, hr, _, hc, _⟩ | ⟨m', reply, hr, _⟩
      · rw [hr]
        exact .inr store
      · rw [hr]
        exact .inl hc.config
      · rw [hr] at hf
        cases hf
    · obtain ⟨e, hre⟩ := request_conflict ht hth hs
      rw [hre]

/-- A request that carries the current revision and fails synchronizes the traffic of the store before it does. -/
theorem failed_request_syncs_traffic :
    let m := sampleManager.run sampleLibrary sampleOps
    let result := m.request sampleLibrary {}
      (.create { inbound := "in", name := "" } { id := "v", createdAt := 1, updatedAt := 1, token := .ok "" }) 5
    (m.store.listeners.lookup "in").map ListenerState.revision = some 5 ∧
      result.2 = .error (.plain (.invalid "user name is required")) ∧
      m.store.users.map User.uploadBytes = [0] ∧ result.1.store.users.map User.uploadBytes = [7] := by
  decide +kernel

end AsterCore.Aster
