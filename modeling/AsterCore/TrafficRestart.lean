import AsterCore.TrafficWindow
import AsterCore.TrafficStore
import AsterCore.TrafficParse

namespace AsterCore

open GoMap Counters PolicyState RuntimePolicy

/-- The policy states that can arise for a policy, `configured` being the policies that are ever
configured. `reuse` is a reconfiguration that keeps the identity, `restart` one that loads the
state from the store; a call may still come from an earlier runtime. -/
inductive PolicyReach (lib : Stdlib) (configured : Policy → Prop) : Policy → PolicyState → Prop
  | create {spec : Policy} (known : configured spec) (generation : UInt64) (now : Int) :
    PolicyReach lib configured spec
      ((newPolicyState spec.id (policyIdentity lib spec) generation now).attach spec)
  | call {spec caller : Policy} {state : PolicyState} (reach : PolicyReach lib configured spec state)
    (known : configured caller) (same : policyIdentity lib caller = state.identity) (op : UsageOp) :
    PolicyReach lib configured spec ((newRuntimePolicy caller 0).apply state op).1
  | connections {spec : Policy} {state : PolicyState} (reach : PolicyReach lib configured spec state)
    (active lastSeen : Int) :
    PolicyReach lib configured spec { state with active := active, lastSeen := lastSeen }
  | reuse {spec next : Policy} {state : PolicyState} (reach : PolicyReach lib configured spec state)
    (known : configured next) (same : policyIdentity lib next = state.identity) :
    PolicyReach lib configured next (state.attach next)
  | restart {spec next : Policy} {state : PolicyState} (reach : PolicyReach lib configured spec state)
    (known : configured next) (same : policyIdentity lib next = state.identity) :
    PolicyReach lib configured next (state.persist.load.attach next)

def RuntimePolicy.crossings (p : RuntimePolicy) : PolicyState → List UsageOp → List Bool
  | _, [] => []
  | state, op :: ops => (p.apply state op).2 :: p.crossings (p.apply state op).1 ops

structure CachesSound (p : RuntimePolicy) (state : PolicyState) : Prop where
  cutoff : CutoffSound p state
  rolling : state.rolling = sumBuckets state.buckets
  starts : ∀ k c, state.buckets.lookup k = some c → 0 ≤ k ∧ 0 < p.bucketWidthSecs

namespace RuntimePolicy

variable {p : RuntimePolicy} {state : PolicyState}

theorem apply_usage {s t : PolicyState} (hs : CutoffSound p s)
    (hso' : CutoffSound p t) (same : s.usage = t.usage) (op : UsageOp) :
    (p.apply s op).1.usage = (p.apply t op).1.usage ∧ (p.apply s op).2 = (p.apply t op).2 := by
  obtain ⟨state, hc⟩ := apply_eq_applyPruning hs same op
  obtain ⟨hs', hc'⟩ := apply_eq_applyPruning hso' rfl op
  exact ⟨state.trans hs'.symm, hc.trans hc'.symm⟩

theorem run_usage {s t : PolicyState} (hs : CutoffSound p s)
    (hs' : CutoffSound p t) (same : s.usage = t.usage) (ops : List UsageOp) :
    (p.run s ops).usage = (p.run t ops).usage ∧ p.crossings s ops = p.crossings t ops := by
  induction ops generalizing s t with
  | nil => exact ⟨same, rfl⟩
  | cons op _ ih =>
    obtain ⟨state, hc⟩ := apply_usage hs hs' same op
    obtain ⟨hf, hr⟩ := ih (apply_sound hs op) (apply_sound hs' op) state
    exact ⟨hf, by simp only [crossings, hc, hr]⟩

theorem prune_rolling (cutoff : Int) (hr : state.rolling = sumBuckets state.buckets) :
    (p.pruneBucketsLocked state cutoff).rolling = sumBuckets (p.pruneBucketsLocked state cutoff).buckets := by
  obtain ⟨_, eq, _⟩ := p.pruneBucketsLocked_spec state cutoff
  rw [sumBuckets_eq_sumBy] at hr
  rw [eq, sumBuckets_eq_sumBy]
  rw [hr, sumBy_deleteWhere, sub_eq_iff_eq_add, ← sumBy_add]
  apply sumBy_congr
  intro k c _
  unfold expiredBucket
  by_cases he : k + p.bucketWidthSecs ≤ cutoff <;> simp [he]

theorem prune_buckets {cutoff k : Int} {c : Counters}
    (ht : (p.pruneBucketsLocked state cutoff).buckets.lookup k = some c) : state.buckets.lookup k = some c := by
  obtain ⟨_, eq, _⟩ := p.pruneBucketsLocked_spec state cutoff
  rw [eq] at ht
  simp only [lookup_deleteWhere, Option.filter_eq_some_iff] at ht
  exact ht.1

theorem prune_caches (hs : CachesSound p state) (cutoff : Int) : CachesSound p (p.pruneBucketsLocked state cutoff) :=
  ⟨p.pruneBucketsLocked_sound state cutoff, prune_rolling cutoff hs.rolling,
    fun k c ht => hs.starts k c (prune_buckets ht)⟩

theorem pruneForRecord_caches (hs : CachesSound p state)
    (start cutoff : Int) : CachesSound p (p.pruneForRecord start cutoff state) := by
  have hp := prune_caches hs cutoff
  unfold pruneForRecord
  split
  · exact ⟨hp.cutoff, hp.rolling, hp.starts⟩
  · exact hs

theorem addToBucket_rolling (direction : Direction) (bytes : Int64) (start : Int)
    (hr : state.rolling = sumBuckets state.buckets) :
    (p.addToBucket direction bytes start state).rolling = sumBuckets (p.addToBucket direction bytes start state).buckets := by
  rw [sumBuckets_eq_sumBy] at hr ⊢
  simp only [addToBucket]
  rw [sumBy_update, ← hr, add_eq_add_ofBytes, add_eq_add_ofBytes]
  cases state.buckets.lookup start with
  | none => simp [bytesOnly_ofBytes]
  | some => simp [bytesOnly_add, bytesOnly_ofBytes]

theorem addToBucket_caches (hs : CachesSound p state)
    (direction : Direction) (bytes : Int64) {start : Int} (epoch : 0 ≤ start) (hw : 0 < p.bucketWidthSecs) :
    CachesSound p (p.addToBucket direction bytes start state) := by
  refine ⟨addToBucket_sound hs.cutoff direction bytes start, addToBucket_rolling direction bytes start hs.rolling, ?_⟩
  intro k c ht
  simp only [addToBucket, lookup_insert_eq] at ht
  split at ht
  next same => exact ⟨by omega, hw⟩
  · exact hs.starts k c ht

theorem record_caches (hso : CachesSound p state) (direction : Direction) (bytes : Int64) (now : Nat) :
    CachesSound p (p.record direction bytes now state).1 := by
  have hc : CachesSound p (countTransfer direction bytes now state) :=
    ⟨hso.cutoff, hso.rolling, hso.starts⟩
  have hs : ∀ (rolling : Counters) {t : PolicyState}, CachesSound p t →
      CachesSound p (p.settleQuota rolling t).1 :=
    fun _ _ h => ⟨h.cutoff, h.rolling, h.starts⟩
  unfold record
  split
  next hw =>
    have he := Int.mul_nonneg (Int.ediv_nonneg (unixOf_nonneg now) (le_of_lt hw)) (le_of_lt hw)
    exact hs _ (addToBucket_caches (pruneForRecord_caches hc _ _) direction bytes he hw)
  · exact hs _ hc

theorem apply_caches (hs : CachesSound p state) (op : UsageOp) : CachesSound p (p.apply state op).1 := by
  cases op with
  | record direction bytes now => exact record_caches hs direction bytes now
  | refreshQuota now =>
    have hp := prune_caches hs (unixBefore now p.spec.quota.window)
    simp only [apply, refreshQuota]
    split
    · exact ⟨hs.cutoff, hs.rolling, hs.starts⟩
    · exact ⟨hp.cutoff, hp.rolling, hp.starts⟩
  | reset now =>
    refine ⟨apply_sound hs.cutoff (.reset now), rfl, ?_⟩
    intro k c ht
    simp [apply, reset] at ht

theorem apply_identity (p : RuntimePolicy) (state : PolicyState) (op : UsageOp) :
    (p.apply state op).1.identity = state.identity := by
  have hp : ∀ (s : PolicyState) (cutoff : Int), (p.pruneBucketsLocked s cutoff).identity = s.identity := by
    intro s cutoff
    obtain ⟨_, eq, _⟩ := p.pruneBucketsLocked_spec s cutoff
    rw [eq]
  cases op with
  | record =>
    simp only [apply, record, pruneForRecord]
    split
    · simp only [addToBucket]
      split
      · exact hp _ _
      · rfl
    · rfl
  | refreshQuota =>
    simp only [apply, refreshQuota]
    split
    · rfl
    · exact hp _ _
  | reset => rfl

end RuntimePolicy

section Restart

variable {lib : Stdlib} {configured : Policy → Prop}

variable {spec : Policy} {ref : Nat}

variable {state : PolicyState}

theorem cachesSound_congr {other : Policy} {ref' : Nat}
    (hs : CachesSound (newRuntimePolicy spec ref) state) (hw : spec.quota.window = other.quota.window) :
    CachesSound (newRuntimePolicy other ref') state := by
  have hwi : (newRuntimePolicy spec ref).bucketWidthSecs = (newRuntimePolicy other ref').bucketWidthSecs := by
    simp only [newRuntimePolicy, hw]
  refine ⟨?_, hs.rolling, ?_⟩
  · intro k c hk
    rw [← hwi]
    exact hs.cutoff k c hk
  · rw [← hwi]
    exact hs.starts

theorem attach_of_sound (spec : Policy) (hr : state.rolling = sumBuckets state.buckets) : state.attach spec = state := by
  unfold attach
  split
  · rw [← hr]
  · rfl

theorem reload_of_sound (hs : CachesSound (newRuntimePolicy spec ref) state) :
    state.persist.load.attach spec = { state with bucketStart := 0, nextCutoff := 0, active := 0 } := by
  unfold attach
  rw [load_persist]
  split
  · rw [hs.rolling]
  next none =>
    have he : state.buckets = ∅ := by
      apply eq_empty_of_lookup
      intro k
      cases ht : state.buckets.lookup k with
      | none => rfl
      | some c =>
        have hw := (hs.starts k c ht).2
        simp [newRuntimePolicy, none] at hw
    have hz : state.rolling = 0 := by
      rw [hs.rolling, he]
      rfl
    rw [hz]

theorem reload_sound (hs : CachesSound (newRuntimePolicy spec ref) state) :
    CachesSound (newRuntimePolicy spec ref) (state.persist.load.attach spec) := by
  rw [reload_of_sound hs]
  refine ⟨?_, hs.rolling, hs.starts⟩
  intro k c ht
  have := hs.starts k c ht
  simp only
  omega

theorem policyReach_sound (hd : ∀ a b, configured a → configured b →
      policyIdentity lib a = policyIdentity lib b → a.quota.window = b.quota.window)
    (hre : PolicyReach lib configured spec state) :
    configured spec ∧ state.identity = policyIdentity lib spec ∧
      CachesSound (newRuntimePolicy spec 0) state := by
  induction hre with
  | @create spec hk generation now =>
    have ha : (newPolicyState spec.id (policyIdentity lib spec) generation now).attach spec =
        newPolicyState spec.id (policyIdentity lib spec) generation now := attach_of_sound spec rfl
    rw [ha]
    exact ⟨hk, rfl, fun k c ht => by simp [newPolicyState] at ht, rfl,
      fun k c ht => by simp [newPolicyState] at ht⟩
  | @call spec caller state _ hk same op ih =>
    obtain ⟨hh, hi, hs⟩ := ih
    have hw := hd caller spec hk hh (same.trans hi)
    have hm : CachesSound (newRuntimePolicy caller 0) state := cachesSound_congr hs hw.symm
    refine ⟨hh, ?_, cachesSound_congr (apply_caches hm op) hw⟩
    rw [apply_identity]
    exact hi
  | connections _ _ _ ih =>
    obtain ⟨hh, hi, hs⟩ := ih
    exact ⟨hh, hi, hs.cutoff, hs.rolling, hs.starts⟩
  | @reuse spec next _ _ hk same ih =>
    obtain ⟨hh, hi, hs⟩ := ih
    have hw := hd spec next hh hk (hi.symm.trans same.symm)
    rw [attach_of_sound next hs.rolling]
    exact ⟨hk, same.symm, cachesSound_congr hs hw⟩
  | @restart spec next state _ hk same ih =>
    obtain ⟨hh, hi, hs⟩ := ih
    have hw := hd spec next hh hk (hi.symm.trans same.symm)
    have hm : CachesSound (newRuntimePolicy next 0) state := cachesSound_congr hs hw
    have hr := reload_sound hm
    refine ⟨hk, ?_, hr⟩
    rw [reload_of_sound hm]
    exact same.symm

theorem crossings_ref (spec : Policy) (ref ref' : Nat) (state : PolicyState) (ops : List UsageOp) :
    (newRuntimePolicy spec ref').crossings state ops = (newRuntimePolicy spec ref).crossings state ops := by
  induction ops generalizing state with
  | nil => rfl
  | cons _ _ ih => exact congrArg _ (ih _)

/-- A policy that is saved, loaded and rebuilt answers every further call like the one it was
saved from. Policies that share an identity are assumed to share their window: the identity is a
digest over it. -/
theorem restart_transparent (lib : Stdlib) (configured : Policy → Prop) (distinct : ∀ a b, configured a → configured b →
      policyIdentity lib a = policyIdentity lib b → a.quota.window = b.quota.window)
    (spec : Policy) (state : PolicyState) (reach : PolicyReach lib configured spec state) (ref ref' : Nat)
    (ops : List UsageOp) : let p := newRuntimePolicy spec ref
    let q := newRuntimePolicy spec ref'
    let restarted := state.persist.load.attach spec
    (q.run restarted ops).counters = (p.run state ops).counters ∧
      (q.run restarted ops).rolling = (p.run state ops).rolling ∧
      (q.run restarted ops).overQuota = (p.run state ops).overQuota ∧
      (q.run restarted ops).buckets = (p.run state ops).buckets ∧
      q.crossings restarted ops = p.crossings state ops := by
  obtain ⟨_, _, hs⟩ := policyReach_sound distinct reach
  intro p q restarted
  have hh : CachesSound p state := cachesSound_congr hs rfl
  have ht := reload_sound hh
  have same : restarted.usage = state.usage := by
    simp only [restarted, reload_of_sound hh]
    rfl
  obtain ⟨hu, hc⟩ := run_usage ht.cutoff hh.cutoff same ops
  exact ⟨usage_counters hu, usage_rolling hu,
    usage_overQuota hu, usage_buckets hu,
    (crossings_ref spec ref ref' restarted ops).trans hc⟩

end Restart

/-- The library with the SHA-256 sum of the identity text of `hourlyPolicy`. -/
def hourlyStdlib : Stdlib :=
  asciiStdlib (fun _ => "97ec1bea1a4d4ff7a156cffaba8ad1e3443e5d72147ef62c2aab76e9c7ce52bd") (fun _ => "1h0m0s")

def hourlyUsed : PolicyState :=
  ((newRuntimePolicy hourlyPolicy 0).apply ((newPolicyState hourlyPolicy.id
    (policyIdentity hourlyStdlib hourlyPolicy) 1 1786017600).attach hourlyPolicy)
      (.record .upload 90 1786017600000000000)).1

theorem hourlyUsed_reach : PolicyReach hourlyStdlib (· = hourlyPolicy) hourlyPolicy hourlyUsed := by
  apply PolicyReach.call
  · apply PolicyReach.create
    rfl
  · rfl
  · rfl

/-- 90 bytes before the restart and 20 bytes after it cross a quota of 100 bytes. -/
theorem restart_transparent_hourly : (newRuntimePolicy hourlyPolicy 1).crossings (hourlyUsed.persist.load.attach hourlyPolicy)
        [.record .download 20 1786017660000000000] =
      (newRuntimePolicy hourlyPolicy 0).crossings hourlyUsed [.record .download 20 1786017660000000000] :=
  (restart_transparent hourlyStdlib (· = hourlyPolicy) (fun a b ha hb _ => by rw [ha, hb])
    hourlyPolicy hourlyUsed hourlyUsed_reach 0 1 [.record .download 20 1786017660000000000]).2.2.2.2

end AsterCore
