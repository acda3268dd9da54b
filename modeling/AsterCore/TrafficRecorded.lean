import AsterCore.TrafficLedger
import AsterCore.TrafficReturns

namespace AsterCore

open List Counters Program

def moved (ref : Nat) (entries : List LedgerEntry) : Counters :=
  ((entries.filter (fun e => e.policy.state == ref)).map (fun e => Counters.ofBytes e.direction e.bytes)).sum

theorem moved_append (ref : Nat) (entries later : List LedgerEntry) :
    moved ref (entries ++ later) = moved ref entries + moved ref later := by
  simp [moved]

theorem RuntimePolicy.record_bytes (p : RuntimePolicy) (direction : Direction) (bytes : Int64) (now : Nat)
    (s : PolicyState) : (p.record direction bytes now s).1.counters.bytesOnly =
      s.counters.bytesOnly + ofBytes direction bytes := by
  have hc : (s.counters.add direction bytes).bytesOnly = s.counters.bytesOnly + ofBytes direction bytes := by
    rw [add_eq_add_ofBytes, bytesOnly_add, bytesOnly_ofBytes]
  rw [← hc, p.record_spec direction bytes now s]
  split <;> rfl

namespace Manager

variable {lib : Stdlib} {m : Manager} {a : Action}

theorem act_freshState : m.freshState ≤ (m.act lib a).freshState := by
  cases a with
  | stageMaps config env => exact (stageMaps_step lib config env m).fresh
  | stagePolicy now stage spec => exact (stagePolicy_step lib now (m, stage) spec).fresh
  | _ => exact le_refl _

theorem act_counts (lib : Stdlib) (i : Nat) {ref : Nat} (ht : ref < m.freshState) :
    ((m.act lib a).heap ref).counters.bytesOnly = (m.heap ref).counters.bytesOnly + moved ref (a.entries m i) := by
  have hk : ∀ {f : PolicyState → PolicyState} {target : Nat},
      (f (m.heap target)).counters = (m.heap target).counters →
      ((m.modifyState target f).heap ref).counters.bytesOnly = (m.heap ref).counters.bytesOnly + 0 := by
    intro f target hs
    by_cases hh : ref = target
    · subst hh
      simp [modifyState, hs]
    · simp [modifyState, Function.update_of_ne hh]
  have hp : ∀ {m' : Manager}, PrepareStep m m' →
      (m'.heap ref).counters.bytesOnly = (m.heap ref).counters.bytesOnly + 0 := by
    intro m' step
    have hs : m'.heap ref = { m.heap ref with rolling := (m'.heap ref).rolling } := step.heap ref ht
    rw [hs, add_zero]
  cases a with
  | refresh p now => exact hk (f := p.refreshQuota now) (by rw [p.refreshQuota_spec now])
  | active delta => exact hk (f := fun state => { state with active := state.active + delta }) rfl
  | touch _ now => exact hk (f := fun state => { state with lastSeen := unixOf now }) rfl
  | stageMaps config env => exact hp (stageMaps_step lib config env m)
  | stagePolicy now stage spec => exact hp (stagePolicy_step lib now (m, stage) spec)
  | count p =>
    by_cases hh : p.state = ref
    · subst hh
      simp [act, modifyState, p.record_bytes, Action.entries, moved]
    · simp [act, modifyState, Function.update_of_ne (Ne.symm hh), Action.entries, moved, hh]
  | _ => exact (add_zero _).symm

end Manager

theorem run_counts {lib : Stdlib} {v w : World Shared Call} {events : List (Event Call Nat)}
    (run : (trafficControl lib).run v events = some w) :
    ∃ entries, w.shared.ledger = v.shared.ledger ++ entries ∧ ∀ ref < v.shared.manager.freshState,
      (w.shared.manager.heap ref).counters.bytesOnly =
        (v.shared.manager.heap ref).counters.bytesOnly + moved ref entries := by
  induction events generalizing v with
  | nil =>
    cases run
    exact ⟨[], (append_nil _).symm, fun _ _ => (add_zero _).symm⟩
  | cons _ _ ih =>
    obtain ⟨_, hf, hr⟩ := run_cons run
    obtain ⟨entries, hl, hc⟩ := ih hr
    rcases fire_cases hf with ⟨t, rfl, _, rfl⟩ | ⟨d, rfl, rfl⟩ | ⟨i, t, a, t', rfl, step, rfl⟩
    · exact ⟨entries, hl, hc⟩
    · exact ⟨entries, hl, hc⟩
    · refine ⟨a.entries v.shared.manager i ++ entries, ?_, fun ref ht => ?_⟩
      · rw [hl, ← append_assoc]
        exact congrArg (· ++ entries) (v.shared.perform_ledger lib i a)
      · rw [moved_append, ← add_assoc, ← Manager.act_counts lib i ht]
        exact hc ref (lt_of_lt_of_le ht Manager.act_freshState)

/-- A call has passed the record gate once, under the runtime `r`, and has counted the transfer once
for every enabled policy of `r` that selects the flow, and for nothing else. -/
structure CountedOnce (lib : Stdlib) (s : Shared) (flow : Flow) (i : Nat) (direction : Direction) (bytes : Int64)
    (r : RuntimeState) : Prop where
  passes : s.passes i = [r]
  entries : s.entries i = ledgerEntries i direction bytes r (r.policies.filter (RuntimePolicy.selects lib flow))
  distinct : (r.policies.map RuntimePolicy.state).Nodup

theorem RecordPc.Good.applied {lib : Stdlib} {m : Manager} {session : Session} {bytes : Int64} {pc : RecordPc}
    {b : SessionBinding} {counted : List RuntimePolicy} (hg : pc.Good lib m session bytes)
    (h : pc.applied = some (b, counted)) : m.Binds lib session.flow b ∧ counted ⊆ b.policies := by
  cases pc with
  | clock =>
    cases h
    exact ⟨hg.1, nil_subset _⟩
  | count =>
    cases h
    refine ⟨hg.1, ?_⟩
    rw [← hg.2.2]
    exact subset_append_left _ _
  | report b' now crossed pc | dirty b' now crossed | exceeded b' pc =>
    cases h
    exact ⟨hg.1, List.Subset.refl _⟩
  | returned b' =>
    cases b' with
    | none => cases h
    | some =>
      cases h
      exact ⟨hg, List.Subset.refl _⟩
  | _ => cases h

section Reached

variable {lib : Stdlib} {w : World Shared Call} (sound : (soundness lib).Holds w) (told : history.Holds w)

theorem reached_holds {clock : Nat} {events : List (Event Call Nat)}
    (run : (trafficControl lib).run (newWorld clock) events = some w) : (soundness lib).Holds w ∧ history.Holds w := by
  have hs := soundness_newWorld lib clock
  have ha := along_true (p := trafficControl lib) (newWorld clock) events
  have ho := soundness_outline lib (fun _ _ => True)
  have hn : history.Holds (newWorld clock) := by
    refine ⟨⟨?_, ?_⟩, ?_⟩
    · intro e he
      cases he
    · intro e he
      cases he
    · intro i t hh
      cases hh
  exact ⟨(ho.run hs ha run).2,
    ((history_outline lib).run ⟨hs.1, hn⟩ (ho.along hs ha) run).2⟩

include sound told

theorem counted_once {i k : Nat} {direction : Direction} {bytes : Int64} {session : Session} {b : SessionBinding}
    (hh : w.calls[i]? = some (.recording k direction bytes (.returned (some b))))
    (ht : w.shared.manager.sessions[k]? = some session) :
    CountedOnce lib w.shared session.flow i direction bytes b.runtime := by
  obtain ⟨_, ht', hbi⟩ := sound.2 i _ hh
  rw [ht] at ht'
  cases ht'
  have hb := hbi
  obtain ⟨hp, he⟩ := told.2 i _ hh
  refine ⟨hp, ?_, hb.runtime.distinct⟩
  rw [he, ← RuntimeState.matched_eq_filter hb.runtime.off, ← hb.policies]
  rfl

theorem ledger_current {e : LedgerEntry} (he : e ∈ w.shared.ledger) :
    (∃ k pc, w.calls[e.call]? = some (.recording k e.direction e.bytes pc)) ∧
      w.shared.passes e.call = [e.runtime] ∧ e.policy ∈ e.runtime.policies := by
  obtain ⟨i, policy, direction, bytes, r⟩ := e
  have lt := told.1.2 _ he
  have hh := getElem?_eq_getElem lt
  obtain ⟨hpa, hen⟩ := told.2 i _ hh
  have hg := sound.2 i _ hh
  have own : ⟨i, policy, direction, bytes, r⟩ ∈ w.shared.entries i := mem_filter.mpr ⟨he, by simp⟩
  rw [hen] at own
  rw [hpa]
  generalize w.calls[i] = t at hh hg own ⊢
  cases t with
  | recording k _ _ pc =>
    obtain ⟨_, _, hg⟩ := hg
    cases ha : pc.applied with
    | none => simp [Call.entries, ha] at own
    | some =>
      obtain ⟨hb, hs⟩ := RecordPc.Good.applied hg ha
      simp only [Call.entries, ha] at own
      obtain ⟨p, hp, eq⟩ := mem_map.mp own
      cases eq
      refine ⟨⟨k, pc, hh⟩, by simp [Call.passes, Call.applied, ha], ?_⟩
      have hm := hs hp
      rw [hb.policies] at hm
      exact RuntimeState.matched_subset hm
  | _ => cases own

end Reached

/-- However `Record` calls and `Configure` calls are interleaved: the byte counters of a state change
by what the `Record` calls count for it. A call counts under one runtime only, the one that is current
when it passes the record gate, and only for policies of that runtime. A call that has returned has
counted its transfer once for every enabled policy of that runtime that selects the flow, unless
there was nothing to count or the session is closed. And a call on an open session, in whatever
place of its loop, does return and has counted then. -/
theorem record_counted_once {lib : Stdlib} {clock : Nat} {before events : List (Event Call Nat)}
    {v w : World Shared Call} (reached : (trafficControl lib).run (newWorld clock) before = some v)
    (run : (trafficControl lib).run v events = some w) :
    (∃ entries, w.shared.ledger = v.shared.ledger ++ entries ∧ ∀ ref < v.shared.manager.freshState,
      (w.shared.manager.heap ref).counters.bytesOnly =
        (v.shared.manager.heap ref).counters.bytesOnly + moved ref entries) ∧
    (∀ e ∈ w.shared.ledger, (∃ k pc, w.calls[e.call]? = some (.recording k e.direction e.bytes pc)) ∧
      w.shared.passes e.call = [e.runtime] ∧ e.policy ∈ e.runtime.policies) ∧
    ∀ (i k : Nat) direction bytes pc session, w.calls[i]? = some (.recording k direction bytes pc) →
      w.shared.manager.sessions[k]? = some session →
      (∀ b, pc = .returned (some b) → CountedOnce lib w.shared session.flow i direction bytes b.runtime) ∧
      (pc = .returned none → (bytes ≤ 0 ∨ session.closed = true) ∧ w.shared.entries i = []) ∧
      (0 < bytes → session.closed = false → (∀ (j : Nat) u, j ≠ i → w.calls[j]? = some u → u.held = []) →
        ∃ n w' b, (trafficControl lib).run w (List.replicate n (.step i)) = some w' ∧
          w'.calls[i]? = some (.recording k direction bytes (.returned (some b))) ∧
          CountedOnce lib w'.shared session.flow i direction bytes b.runtime) := by
  have hb : (trafficControl lib).run (newWorld clock) (before ++ events) = some w := by
    rw [run_append, reached]
    exact run
  obtain ⟨hs, ht⟩ := reached_holds hb
  refine ⟨run_counts run, fun e he => ledger_current hs ht he, ?_⟩
  intro i k _ _ _ _ hh there
  refine ⟨?_, ?_, ?_⟩
  · rintro b rfl
    exact counted_once hs ht hh there
  · rintro rfl
    obtain ⟨_, ht', hg⟩ := hs.2 i _ hh
    rw [there] at ht'
    cases ht'
    exact ⟨hg, (ht.2 i _ hh).2⟩
  · intro hp ho hot
    obtain ⟨n, w', b, _, ha, hh', ht', flow, closed⟩ := record_returns hs hh there hot
    have all : (trafficControl lib).run (newWorld clock) (before ++ events ++ replicate n (.step i)) = some w' := by
      rw [run_append, hb]
      exact ha
    obtain ⟨hs', told'⟩ := reached_holds all
    cases b with
    | none =>
      obtain ⟨_, ht'', hg⟩ := hs'.2 i _ hh'
      rw [ht'] at ht''
      cases ht''
      rcases hg with nothing | shut
      · exact absurd nothing (Int64.not_le.mpr hp)
      · rw [closed, ho] at shut
        cases shut
    | some b =>
      refine ⟨n, w', b, ha, hh', ?_⟩
      rw [← flow]
      exact counted_once hs' told' hh' ht'

/-- `Record` is about to take the gate of the first runtime when a second configuration is published. -/
def swapRun : List (Event Call Nat) :=
  [.call (.recording 0 .upload 10 .start)] ++ List.replicate 4 (.step 2) ++
    [.call (.configuring (some idleConfig) {} .lock)] ++ List.replicate 29 (.step 3) ++ List.replicate 33 (.step 2)

/-- The call has counted 10 uploaded bytes for the session 0, under the runtime `ref`. -/
def Call.uploadedTen (ref : Nat) : Call → Bool
  | .recording k direction bytes (.returned (some b)) =>
    k == 0 && direction == .upload && bytes == 10 && b.runtime.ref == ref
  | _ => false

theorem record_counted_once_swap :
    ∃ v w flow, ∃ r : RuntimeState,
      (trafficControl idleStdlib).run (newWorld 1785542400000000000) (openingRun idleConfig 11) = some v ∧
      (trafficControl idleStdlib).run v swapRun = some w ∧
      CountedOnce idleStdlib w.shared flow 2 .upload 10 r ∧ r.ref = 2 := by
  obtain ⟨v, w, hr, run, ⟨t, hh, hc⟩, hf⟩ : ∃ v w,
      (trafficControl idleStdlib).run (newWorld 1785542400000000000) (openingRun idleConfig 11) = some v ∧
      (trafficControl idleStdlib).run v swapRun = some w ∧ (∃ t ∈ w.calls[2]?, Call.uploadedTen 2 t = true) ∧
      (w.shared.manager.sessions[0]?).isSome := exists_of_any_any (by decide +kernel)
  obtain ⟨session, ht⟩ := Option.isSome_iff_exists.mp hf
  unfold Call.uploadedTen at hc
  split at hc
  next b =>
    simp only [Bool.and_eq_true, beq_iff_eq] at hc
    obtain ⟨⟨⟨rfl, rfl⟩, rfl⟩, hcu⟩ := hc
    exact ⟨v, w, session.flow, b.runtime, hr, run,
      ((record_counted_once hr run).2.2 2 0 .upload 10 _ session hh ht).1 b rfl, hcu⟩
  · cases hc

end AsterCore
