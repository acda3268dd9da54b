import AsterCore.Runs
import AsterCore.TrafficRestart

namespace AsterCore

open List

/-- What happens to the state of a policy. A call comes with the policy as the runtime of the caller has it; a
reconfiguration that keeps the identity goes on with the state. -/
inductive PolicyEvent
  | call (caller : Policy) (op : UsageOp)
  | configure (next : Policy)

def RuntimePolicy.windowUsage (p : RuntimePolicy) (now : Nat) (state : PolicyState) : Counters :=
  state.rolling - state.buckets.sumBy
    (fun k c => if k + p.bucketWidthSecs ≤ unixBefore now p.spec.quota.window then c.bytesOnly else 0)

namespace PolicyEvent

def apply (state : PolicyState) : PolicyEvent → PolicyState
  | .call caller op => ((newRuntimePolicy caller 0).apply state op).1
  | .configure next => state.attach next

/-- The state with the number of times `overQuota` has been raised since the last reset. -/
def follow (x : PolicyState × Nat) (e : PolicyEvent) : PolicyState × Nat :=
  (e.apply x.1, match e with
    | .call _ (.reset _) => 0
    | _ => x.2 + ((e.apply x.1).overQuota && !x.1.overQuota).toNat)

def Flagged (x : PolicyState × Nat) : PolicyEvent → Prop
  | .call caller (.refreshQuota now) => x.1.overQuota = false → 0 < caller.quota.window →
      quotaExceeded caller.quota ((newRuntimePolicy caller 0).windowUsage now x.1) = false
  | _ => True

def Counted (x : PolicyState × Nat) : Prop := x.1.counters.exceededEvents = Int64.ofNat x.2

end PolicyEvent

namespace RuntimePolicy

theorem record_crossed (p : RuntimePolicy) (direction : Direction) (bytes : Int64) (now : Nat) (s : PolicyState) :
    (p.record direction bytes now s).2 = ((p.record direction bytes now s).1.overQuota && !s.overQuota) := by
  have hk : ∀ start cutoff (t : PolicyState), (p.pruneForRecord start cutoff t).overQuota = t.overQuota := by
    intro start cutoff t
    obtain ⟨_, eq, _⟩ := p.pruneBucketsLocked_spec t cutoff
    unfold pruneForRecord
    split
    · rw [eq]
    · rfl
  unfold record
  simp only
  split
  · simp [settleQuota, addToBucket, hk, countTransfer]
  · rfl

theorem refreshQuota_overQuota (caller : Policy) (now : Nat) (s : PolicyState) :
    ((newRuntimePolicy caller 0).refreshQuota now s).overQuota =
      (decide (0 < caller.quota.window) && quotaExceeded caller.quota ((newRuntimePolicy caller 0).windowUsage now s)) := by
  obtain ⟨_, eq, _⟩ := (newRuntimePolicy caller 0).pruneBucketsLocked_spec s (unixBefore now caller.quota.window)
  unfold refreshQuota
  by_cases hw : 0 < caller.quota.window
  · have hwi : ¬ (newRuntimePolicy caller 0).bucketWidthSecs ≤ 0 := by
      have := quotaBucketWidthSecs_pos caller.quota.window
      simp only [newRuntimePolicy]
      omega
    rw [if_neg hwi]
    simp only [hw, decide_true, Bool.true_and, windowUsage]
    rw [show (newRuntimePolicy caller 0).spec = caller from rfl, eq]
  · rw [if_pos (by simp [newRuntimePolicy, hw])]
    simp [hw]

end RuntimePolicy

namespace PolicyEvent

theorem follow_counted_iff {x : PolicyState × Nat} {e : PolicyEvent} (hc : Counted x) : Counted (follow x e) ↔ Flagged x e := by
  obtain ⟨state, raised⟩ := x
  unfold Counted at hc ⊢
  cases e with
  | configure next =>
    have eq : (state.attach next).counters = state.counters ∧ (state.attach next).overQuota = state.overQuota := by
      unfold PolicyState.attach
      split <;> exact ⟨rfl, rfl⟩
    simpa [follow, apply, Flagged, eq] using hc
  | call caller op =>
    cases op with
    | reset now => simp [follow, apply, RuntimePolicy.apply, PolicyState.reset, Flagged]
    | record direction bytes now =>
      have hs := (newRuntimePolicy caller 0).record_spec direction bytes now state
      have hcr := (newRuntimePolicy caller 0).record_crossed direction bytes now state
      have hco := congrArg (fun s => s.counters.exceededEvents) hs
      have ha : (state.counters.add direction bytes).exceededEvents = Int64.ofNat raised := by
        cases direction <;> exact hc
      simp only [hcr] at hco
      simp only [follow, apply, RuntimePolicy.apply, Flagged, iff_true, hco]
      cases ((newRuntimePolicy caller 0).record direction bytes now state).1.overQuota && !state.overQuota with
      | true => exact (congrArg (· + 1) ha).trans (Int64.ofNat_add ..).symm
      | false => exact ha
    | refreshQuota now =>
      have hco : ((newRuntimePolicy caller 0).refreshQuota now state).counters.exceededEvents = Int64.ofNat raised := by
        rw [RuntimePolicy.refreshQuota_spec]
        exact hc
      simp only [follow, apply, RuntimePolicy.apply, Flagged, hco, RuntimePolicy.refreshQuota_overQuota]
      by_cases hw : 0 < caller.quota.window
      · cases quotaExceeded caller.quota ((newRuntimePolicy caller 0).windowUsage now state) <;>
          cases state.overQuota <;> simp [hw]
      · simp [hw]

/-- Along every run of calls and reconfigurations of a policy the counted events are the times its flag was raised, exactly if
no refresh raises it. -/
theorem exceededEvents_iff (lib : Stdlib) (spec : Policy) (generation : UInt64) (created : Int) (events : List PolicyEvent) :
    let start := (newPolicyState spec.id (policyIdentity lib spec) generation created).attach spec
    (∀ before, before <+: events → Counted (before.foldl follow (start, 0))) ↔ MeetsAlong follow Flagged (start, 0) events := by
  intro start
  refine foldl_invariant_iff follow_counted_iff ?_
  simp only [start, PolicyState.attach]
  split <;> rfl

/-- The limit of `hourlyPolicy` is lowered under its use; the next refresh raises the flag and counts no event. -/
theorem exceededEvents_lowered :
    let lowered := { hourlyPolicy with quota := { hourlyPolicy.quota with totalBytes := 40 } }
    let after := [.configure lowered, .call lowered (.refreshQuota 1786017660000000000)].foldl follow (hourlyUsed, 0)
    policyIdentity hourlyStdlib lowered = policyIdentity hourlyStdlib hourlyPolicy ∧
      hourlyUsed.overQuota = false ∧ after.2 = 1 ∧ after.1.counters.exceededEvents = 0 := by
  decide +kernel

end PolicyEvent

end AsterCore
