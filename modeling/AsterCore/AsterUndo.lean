import AsterCore.AsterInvariant

namespace AsterCore.Aster

/-- Nothing has changed but the traffic that was synchronized, and the change of it is not lost. -/
structure Kept (lib : Library) (m m' : Manager) : Prop where
  config : m'.config = m.config
  userIndex : m'.userIndex = m.userIndex
  storePath : m'.storePath = m.storePath
  storeUnlock : m'.storeUnlock = m.storeUnlock
  instances : m'.instances = m.instances
  inbounds : m'.inbounds = m.inbounds
  store : m'.store = m.store ∨ ∃ generation, m'.store = { syncTrafficStore m.counters m.store m.runtime with generation := generation }
  runtime : SameRuntime (m.runtime, m.counters) (m'.runtime, m'.counters)
  dirty : m'.dirty = true ∨ Saved lib m'
  core : Core lib m'

/-- Management is disabled, and the listeners are failed closed. -/
structure ClosedDown (lib : Library) (names : List String) (m : Manager) : Prop where
  config : m.config = none
  runtime : m.runtime = {}
  closed : ∀ name ∈ names, (m.inbounds name).FailedClosed
  dirty : m.dirty = true ∨ Saved lib m
  core : Core lib m

/-- The files hold the same up to the traffic and the generations. -/
def SameContent (lib : Library) (m m' : Manager) : Prop := ∀ path, content lib (m'.files path) = content lib (m.files path)

namespace Manager

variable {lib : Library} {env : CallEnv} {m : Manager}

theorem core_released (hn : m.counters.Nonneg) (hp : m.runtime.traffic.Pointers m.counters.next) (hd : m.config = none)
    (hr : m.runtime = {}) : Core lib m.releaseStoreLocked := by
  refine ⟨hn, hp, fun _ => hr, ⟨nofun, absurd rfl⟩, fun config he => ?_,
    absurd rfl⟩
  rw [show m.config = some config from he] at hd
  cases hd

/-- `failClosedStateLocked` disables management and fails the listeners closed, whatever the listeners and the files answer. -/
theorem failClosedStateLocked_spec (core : Core lib m) (env : CallEnv) (names : List String) :
    ClosedDown lib (names ++ m.managedListeners) (m.failClosedStateLocked lib env names).1 ∧
      SameContent lib m (m.failClosedStateLocked lib env names).1 := by
  have all : ∀ name ∈ names ++ m.managedListeners,
      ((failClosedListeners lib env.listeners (sortedSetKeys (names ++ m.managedListeners)) m.inbounds).1 name).FailedClosed :=
    fun name mem => (failClosedListeners_closes _ m.inbounds).1 name (mem_sortedSetKeys.mpr mem)
  have none : (({} : RuntimeState).traffic).Pointers m.counters.next := GoMap.Pointers.empty _
  unfold failClosedStateLocked
  simp only
  generalize failClosedListeners lib env.listeners (sortedSetKeys (names ++ m.managedListeners)) m.inbounds = closed at all ⊢
  generalize first : ({ m with inbounds := closed.1 }.swapRuntime ({}, m.counters)) = m₁
  have attached : m₁.storePath ≠ "" → Attached lib m₁ := by
    subst first
    intro ho
    obtain ⟨disk, flag, loads, same⟩ := core.attached ho
    exact ⟨disk, flag, loads, same.trans (withoutTraffic_syncTrafficStore _ _ _).symm⟩
  have hn : m₁.counters.Nonneg := first ▸ core.nonneg
  have hr : m₁.runtime = {} := by
    subst first
    rfl
  have hp : m₁.runtime.traffic.Pointers m₁.counters.next := by
    subst first
    exact none
  have hi : m₁.inbounds = closed.1 := by
    subst first
    rfl
  have files : m₁.files = m.files := by
    subst first
    rfl
  have hu : m₁.storeUnlock = true ↔ m₁.storePath ≠ "" := by
    subst first
    exact core.unlock
  rw [← hi] at all
  -- the store is saved if one is open, and released unless that fails
  unfold persistOpen
  by_cases ho : m₁.storePath ≠ ""
  · rw [if_pos ho]
    rcases persist_cases lib env.closing m₁ with ⟨e, he⟩ | ⟨written, saved, ok, hs⟩
    · rw [he]
      refine ⟨⟨rfl, hr, all, .inl rfl, ?_⟩, fun path => congrArg (fun files => content lib (files path)) files⟩
      exact ⟨hn, hp, fun _ => hr, hu, nofun, attached⟩
    · rw [ok]
      refine ⟨⟨rfl, hr, all, .inr (.inl rfl), core_released hn hp rfl hr⟩, fun path => ?_⟩
      rw [← files]
      exact (attached ho).content_saved hs path
  · rw [if_neg ho]
    exact ⟨⟨rfl, hr, all, .inr (.inl rfl), core_released hn hp rfl hr⟩,
      fun path => congrArg (fun files => content lib (files path)) files⟩

theorem stuck_spec (hc : Core lib m) (env : CallEnv) (names : List String) {e : CallError} (hf : e.rollbackFailed = true) :
    (stuck lib env names e m).2.rollbackFailed = true ∧ ClosedDown lib (names ++ m.managedListeners) (stuck lib env names e m).1 ∧
      SameContent lib m (stuck lib env names e m).1 := by
  refine ⟨?_, failClosedStateLocked_spec hc env names⟩
  simp only [stuck]
  cases (m.failClosedStateLocked lib env names).2 with
  | none => exact hf
  | some => simp [CallError.rollbackFailed, hf]

/-- An error leads back to the listeners from before, or the listeners are failed closed. -/
theorem undo_cases (core : Core lib m) (env : CallEnv) (names : List String) (e : CallError) {changes : List ListenerChange}
    {before : Inbounds}
    (hn : (changes.map ListenerChange.name).Nodup) (ht : Touched (changes.map ListenerChange.name) before m.inbounds)
    (hs : ∀ change ∈ changes, change.Starts before) : undo lib env names changes e m = ({ m with inbounds := before }, e) ∨
      (undo lib env names changes e m).2.rollbackFailed = true ∧
        ClosedDown lib (names ++ m.managedListeners) (undo lib env names changes e m).1 ∧ SameContent lib m (undo lib env names changes e m).1 := by
  simp only [undo]
  have hr : (rollbackChanges lib env.listeners changes m.inbounds).2 = none →
      (rollbackChanges lib env.listeners changes m.inbounds).1 = before := rollbackChanges_restores hn ht hs
  have he : ∀ e, (rollbackChanges lib env.listeners changes m.inbounds).2 = some e → e.rollbackFailed = true :=
    fun e => rollbackChanges_error
  generalize rollbackChanges lib env.listeners changes m.inbounds = back at hr he
  obtain ⟨inbounds, failed⟩ := back
  cases failed with
  | none =>
    left
    have same := hr rfl
    rw [same]
  | some e' =>
    right
    have hc' : Core lib { m with inbounds := inbounds } := core.frame _ _ _ _
    have hc := failClosedStateLocked_spec hc' env names
    have bad := he e' rfl
    refine ⟨?_, hc⟩
    cases ({ m with inbounds := inbounds }.failClosedStateLocked lib env names).2 with
    | none | some e'' => simp [CallError.rollbackFailed, bad]

end Manager

end AsterCore.Aster
