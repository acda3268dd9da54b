import AsterCore.TrafficPolicyState

namespace AsterCore

open GoMap

inductive UsageOp
  | record (direction : Direction) (bytes : Int64) (now : Nat)
  | refreshQuota (now : Nat)
  | reset (now : Nat)
  deriving DecidableEq

def UsageOp.now : UsageOp → Nat
  | .record _ _ now => now
  | .refreshQuota now => now
  | .reset now => now

def RuntimePolicy.apply (p : RuntimePolicy) (state : PolicyState) : UsageOp → PolicyState × Bool
  | .record direction bytes now => p.record direction bytes now state
  | .refreshQuota now => (p.refreshQuota now state, false)
  | .reset now => (state.reset now, false)

def RuntimePolicy.run (p : RuntimePolicy) (state : PolicyState) (ops : List UsageOp) : PolicyState :=
  ops.foldl (fun state op => (p.apply state op).1) state

/-- `record` without its fast path: the buckets are pruned on every call. -/
def RuntimePolicy.recordPruning (p : RuntimePolicy) (direction : Direction) (bytes : Int64) (now : Nat)
    (state : PolicyState) : PolicyState × Bool :=
  let state := countTransfer direction bytes now state
  if 0 < p.bucketWidthSecs then
    let start := bucketStartOf p.bucketWidthSecs now
    let state := p.pruneBucketsLocked state (unixBefore now p.spec.quota.window)
    let state := p.addToBucket direction bytes start state
    p.settleQuota state.rolling state
  else p.settleQuota state.counters state

def RuntimePolicy.applyPruning (p : RuntimePolicy) (state : PolicyState) : UsageOp → PolicyState × Bool
  | .record direction bytes now => p.recordPruning direction bytes now state
  | op => p.apply state op

def RuntimePolicy.runPruning (p : RuntimePolicy) (state : PolicyState) (ops : List UsageOp) : PolicyState :=
  ops.foldl (fun state op => (p.applyPruning state op).1) state

def PolicyState.usage (state : PolicyState) : PolicyState :=
  { state with bucketStart := 0, nextCutoff := 0, active := 0 }

def CutoffSound (p : RuntimePolicy) (state : PolicyState) : Prop :=
  ∀ k c, state.buckets.lookup k = some c → state.nextCutoff ≤ k + p.bucketWidthSecs

namespace RuntimePolicy

theorem pruneBucketsLocked_sound (p : RuntimePolicy) (state : PolicyState) (cutoff : Int) :
    CutoffSound p (p.pruneBucketsLocked state cutoff) := by
  obtain ⟨_, eq, hb⟩ := p.pruneBucketsLocked_spec state cutoff
  rw [eq]
  intro k c hk
  simp only [lookup_deleteWhere, Option.filter_eq_some_iff, expiredBucket] at hk
  exact hb k c hk.1 (by simpa using hk.2)

variable {p : RuntimePolicy} {state s t : PolicyState}

theorem pruneBucketsLocked_of_live {cutoff : Int}
    (hl : ∀ k c, state.buckets.lookup k = some c → cutoff < k + p.bucketWidthSecs) :
    (p.pruneBucketsLocked state cutoff).usage = state.usage := by
  obtain ⟨_, eq, _⟩ := p.pruneBucketsLocked_spec state cutoff
  have kept : state.buckets.deleteWhere (p.expiredBucket cutoff) = state.buckets := by
    apply deleteWhere_of_none
    intro k c hk
    have := hl k c hk
    simp only [expiredBucket, decide_eq_false_iff_not]
    omega
  have hn : state.buckets.sumBy
      (fun k c => if k + p.bucketWidthSecs ≤ cutoff then c.bytesOnly else 0) = 0 := by
    refine Eq.trans (sumBy_congr ?_) (sumBy_zero state.buckets)
    intro k c hk
    have := hl k c hk
    rw [if_neg (by omega)]
  rw [eq, kept, hn]
  simp [PolicyState.usage]

theorem pruneForRecord_usage (hs : CutoffSound p state) (start cutoff : Int) :
    (p.pruneForRecord start cutoff state).usage = (p.pruneBucketsLocked state cutoff).usage := by
  unfold pruneForRecord
  split
  · rfl
  next skip =>
    symm
    apply pruneBucketsLocked_of_live
    intro k c hk
    have := hs k c hk
    omega

theorem pruneForRecord_sound (hs : CutoffSound p state)
    (start cutoff : Int) : CutoffSound p (p.pruneForRecord start cutoff state) := by
  unfold pruneForRecord
  split
  · exact p.pruneBucketsLocked_sound state cutoff
  · exact hs

theorem addToBucket_sound (hs : CutoffSound p state) (direction : Direction) (bytes : Int64) (start : Int) :
    CutoffSound p (p.addToBucket direction bytes start state) := by
  intro k c hk
  simp only [addToBucket, lookup_insert_eq] at hk ⊢
  have hb : k ≠ start → state.nextCutoff ≤ k + p.bucketWidthSecs := by
    intro ne
    rw [if_neg ne] at hk
    exact hs k c hk
  cases old : state.buckets.lookup start with
  | none =>
    simp only [Option.isNone_none, true_and]
    by_cases same : k = start
    · subst same; split <;> omega
    · have := hb same; split <;> omega
  | some d =>
    have := hs start d old
    by_cases same : k = start
    · subst same; simpa using this
    · simpa using hb same

theorem usage_congr {α : Type} (f : PolicyState → α) (hf : ∀ state, f state = f state.usage) (hs : s.usage = t.usage) :
    f s = f t := by
  rw [hf s, hf t, hs]

theorem pruneBucketsLocked_congr (hs : s.usage = t.usage) (cutoff : Int) :
    (p.pruneBucketsLocked s cutoff).usage = (p.pruneBucketsLocked t cutoff).usage := by
  refine usage_congr (fun state => (p.pruneBucketsLocked state cutoff).usage) (fun state => ?_) hs
  obtain ⟨_, eq, _⟩ := p.pruneBucketsLocked_spec state cutoff
  obtain ⟨_, eq', _⟩ := p.pruneBucketsLocked_spec state.usage cutoff
  simp only [eq, eq']
  rfl

theorem addToBucket_usage (hs : s.usage = t.usage) (direction : Direction) (bytes : Int64) (start : Int) :
    (p.addToBucket direction bytes start s).usage = (p.addToBucket direction bytes start t).usage :=
  usage_congr (fun state => (p.addToBucket direction bytes start state).usage) (fun _ => rfl) hs

theorem settleQuota_usage {rs rt : Counters} (hr : rs = rt) (hs : s.usage = t.usage) :
    (p.settleQuota rs s).1.usage = (p.settleQuota rt t).1.usage ∧
      (p.settleQuota rs s).2 = (p.settleQuota rt t).2 := by
  subst hr
  exact ⟨usage_congr (fun state => (p.settleQuota rs state).1.usage) (fun _ => rfl) hs,
    usage_congr (fun state => (p.settleQuota rs state).2) (fun _ => rfl) hs⟩

theorem settleQuota_sound (rolling : Counters) (hs : CutoffSound p state) : CutoffSound p (p.settleQuota rolling state).1 := hs

section

variable (same : s.usage = t.usage)

include same

theorem usage_rolling : s.rolling = t.rolling := usage_congr _ (fun _ => rfl) same

theorem usage_counters : s.counters = t.counters := usage_congr _ (fun _ => rfl) same

theorem usage_buckets : s.buckets = t.buckets := usage_congr _ (fun _ => rfl) same

theorem usage_overQuota : s.overQuota = t.overQuota := usage_congr _ (fun _ => rfl) same

end

theorem record_eq_recordPruning (hs : CutoffSound p state) (direction : Direction) (bytes : Int64) (now : Nat) :
    (p.record direction bytes now state).1.usage = (p.recordPruning direction bytes now state).1.usage ∧
      (p.record direction bytes now state).2 = (p.recordPruning direction bytes now state).2 := by
  unfold record recordPruning
  split
  · have hc : CutoffSound p (countTransfer direction bytes now state) := hs
    have hp := pruneForRecord_usage hc (bucketStartOf p.bucketWidthSecs now)
      (unixBefore now p.spec.quota.window)
    have ha := addToBucket_usage (p := p) hp direction bytes (bucketStartOf p.bucketWidthSecs now)
    exact settleQuota_usage (usage_rolling ha) ha
  · exact ⟨rfl, rfl⟩

theorem recordPruning_usage (hs : s.usage = t.usage) (direction : Direction) (bytes : Int64) (now : Nat) :
    (p.recordPruning direction bytes now s).1.usage = (p.recordPruning direction bytes now t).1.usage ∧
      (p.recordPruning direction bytes now s).2 = (p.recordPruning direction bytes now t).2 := by
  have hc := usage_congr (fun state => (countTransfer direction bytes now state).usage) (fun _ => rfl) hs
  unfold recordPruning
  split
  · have hp := pruneBucketsLocked_congr (p := p) hc (unixBefore now p.spec.quota.window)
    have ha := addToBucket_usage (p := p) hp direction bytes (bucketStartOf p.bucketWidthSecs now)
    exact settleQuota_usage (usage_rolling ha) ha
  · exact settleQuota_usage (usage_counters hc) hc

theorem record_sound (hs : CutoffSound p state) (direction : Direction) (bytes : Int64) (now : Nat) :
    CutoffSound p (p.record direction bytes now state).1 := by
  unfold record
  split
  · have hc : CutoffSound p (countTransfer direction bytes now state) := hs
    have hp := pruneForRecord_sound hc (bucketStartOf p.bucketWidthSecs now)
      (unixBefore now p.spec.quota.window)
    exact settleQuota_sound _ (addToBucket_sound hp direction bytes _)
  · exact hs

theorem apply_sound (hs : CutoffSound p state) (op : UsageOp) : CutoffSound p (p.apply state op).1 := by
  cases op with
  | record direction bytes now => exact record_sound hs direction bytes now
  | refreshQuota =>
    simp only [apply, refreshQuota]
    split
    · exact hs
    · exact p.pruneBucketsLocked_sound state _
  | reset =>
    intro k c hk
    simp [apply, PolicyState.reset] at hk

theorem refreshQuota_usage (hs : s.usage = t.usage) (now : Nat) :
    (p.refreshQuota now s).usage = (p.refreshQuota now t).usage := by
  unfold refreshQuota
  split
  · exact usage_congr (fun state => { state with overQuota := false }.usage) (fun _ => rfl) hs
  · exact usage_congr (fun state => { state with overQuota := quotaExceeded p.spec.quota state.rolling }.usage) (fun _ => rfl)
      (pruneBucketsLocked_congr hs _)

theorem reset_usage (hs : s.usage = t.usage) (now : Nat) : (s.reset now).usage = (t.reset now).usage :=
  usage_congr (fun state => (state.reset now).usage) (fun _ => rfl) hs

theorem apply_eq_applyPruning (hs : CutoffSound p s) (same : s.usage = t.usage) (op : UsageOp) :
    (p.apply s op).1.usage = (p.applyPruning t op).1.usage ∧
      (p.apply s op).2 = (p.applyPruning t op).2 := by
  cases op with
  | record direction bytes now =>
    obtain ⟨state, hc⟩ := record_eq_recordPruning hs direction bytes now
    obtain ⟨hs', hc'⟩ := recordPruning_usage (p := p) same direction bytes now
    exact ⟨state.trans hs', hc.trans hc'⟩
  | refreshQuota now => exact ⟨refreshQuota_usage same now, rfl⟩
  | reset now => exact ⟨reset_usage same now, rfl⟩

theorem run_sound (hs : CutoffSound p state) (ops : List UsageOp) : CutoffSound p (p.run state ops) := by
  induction ops generalizing state with
  | nil => exact hs
  | cons op _ ih => exact ih (apply_sound hs op)

theorem run_eq_runPruning (hs : CutoffSound p s) (same : s.usage = t.usage) (ops : List UsageOp) :
    (p.run s ops).usage = (p.runPruning t ops).usage := by
  induction ops generalizing s t with
  | nil => exact same
  | cons op _ ih => exact ih (apply_sound hs op) (apply_eq_applyPruning hs same op).1

end RuntimePolicy

end AsterCore
