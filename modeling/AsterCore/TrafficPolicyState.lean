import AsterCore.GoMap
import AsterCore.TrafficCounters
import AsterCore.TrafficConfig

namespace AsterCore

/-- What the manager keeps for one policy. `rolling`, `bucketStart` and `nextCutoff` are caches
over `buckets`. -/
structure PolicyState where
  id : String
  identity : String
  generation : UInt64
  counters : Counters := 0
  buckets : GoMap Int Counters := ∅
  rolling : Counters := 0
  bucketStart : Int := 0
  nextCutoff : Int := 0
  overQuota : Bool := false
  active : Int := 0
  lastUpdated : Int := 0
  lastReset : Int := 0
  lastSeen : Int := 0
  deriving DecidableEq

/-- The state `prepareConfiguration` makes for a policy without history. -/
def newPolicyState (id identity : String) (generation : UInt64) (now : Int) : PolicyState :=
  { id := id, identity := identity, generation := generation, lastReset := now }

def roundSecond (d : Int) : Int :=
  let r := d % 1000000000
  if r + r < 1000000000 then d - r else d + 1000000000 - r

def quotaBucketWidth (window : Int) : Int :=
  let width := (window + 1023) / 1024
  roundSecond (if width < durationMinute then durationMinute else width)

def quotaBucketWidthSecs (window : Int) : Int :=
  let secs := quotaBucketWidth window / 1000000000
  if secs < 1 then 1 else secs

def quotaExceeded (quota : QuotaConfig) (counters : Counters) : Bool :=
  (0 < quota.totalBytes && quota.totalBytes ≤ counters.totalBytes) ||
  (0 < quota.uploadBytes && quota.uploadBytes ≤ counters.uploadBytes) ||
  (0 < quota.downloadBytes && quota.downloadBytes ≤ counters.downloadBytes)

/-- `sumBuckets`: only the byte counters are summed. -/
def sumBuckets (buckets : GoMap Int Counters) : Counters :=
  buckets.foldl (fun result _ counter => result + counter.bytesOnly) 0

/-- A configured policy. `state` is the pointer to the state it counts into. -/
structure RuntimePolicy where
  spec : Policy
  state : Nat
  bucketWidthSecs : Int
  deriving DecidableEq

def newRuntimePolicy (spec : Policy) (state : Nat) : RuntimePolicy :=
  ⟨spec, state, if 0 < spec.quota.window then quotaBucketWidthSecs spec.quota.window else 0⟩

/-- What `newRuntimePolicy` does to the state it is given. -/
def PolicyState.attach (spec : Policy) (state : PolicyState) : PolicyState :=
  if 0 < spec.quota.window then { state with rolling := sumBuckets state.buckets } else state

namespace RuntimePolicy

def maxInt64 : Int := 9223372036854775807

/-- One round of the loop in `pruneBucketsLocked`: the state and the running minimum `next`. -/
def pruneRound (width cutoff : Int) (acc : PolicyState × Int) (key : Int) (counters : Counters) :
    PolicyState × Int :=
  if key + width ≤ cutoff then
    ({ acc.1 with
        rolling := acc.1.rolling - counters.bytesOnly
        buckets := acc.1.buckets.erase key }, acc.2)
  else (acc.1, if key + width < acc.2 then key + width else acc.2)

def pruneBucketsLocked (p : RuntimePolicy) (state : PolicyState) (cutoff : Int) : PolicyState :=
  let acc := state.buckets.foldl (pruneRound p.bucketWidthSecs cutoff) (state, maxInt64)
  { acc.1 with nextCutoff := acc.2 }

def refreshQuota (p : RuntimePolicy) (now : Nat) (state : PolicyState) : PolicyState :=
  if p.bucketWidthSecs ≤ 0 then { state with overQuota := false }
  else
    let state := p.pruneBucketsLocked state (unixBefore now p.spec.quota.window)
    { state with overQuota := quotaExceeded p.spec.quota state.rolling }

def bucketStartOf (width : Int) (now : Nat) : Int := unixOf now / width * width

/-- The bucket update of `record`, after the pruning decision. -/
def addToBucket (p : RuntimePolicy) (direction : Direction) (bytes : Int64) (start : Int)
    (state : PolicyState) : PolicyState :=
  { state with
    nextCutoff :=
      if (state.buckets.lookup start).isNone ∧ start + p.bucketWidthSecs < state.nextCutoff then
        start + p.bucketWidthSecs
      else state.nextCutoff
    buckets := state.buckets.insert start (((state.buckets.lookup start).getD 0).add direction bytes)
    rolling := state.rolling.add direction bytes }

/-- The quota verdict at the end of `record`, with the crossing it reports. -/
def settleQuota (p : RuntimePolicy) (rolling : Counters) (state : PolicyState) : PolicyState × Bool :=
  let exceeded := quotaExceeded p.spec.quota rolling
  let crossed := exceeded && !state.overQuota
  ({ state with
      overQuota := exceeded
      counters := if crossed then
          { state.counters with exceededEvents := state.counters.exceededEvents + 1 }
        else state.counters }, crossed)

/-- The first lines of `record`: the counters and the time stamps. -/
def countTransfer (direction : Direction) (bytes : Int64) (now : Nat) (state : PolicyState) : PolicyState :=
  { state with
    counters := state.counters.add direction bytes
    lastUpdated := unixOf now
    lastSeen := unixOf now }

/-- The pruning decision of `record`: nothing is pruned while the bucket is the current one
and no bucket can have expired. -/
def pruneForRecord (p : RuntimePolicy) (start cutoff : Int) (state : PolicyState) : PolicyState :=
  if start ≠ state.bucketStart ∨ state.nextCutoff ≤ cutoff then
    { p.pruneBucketsLocked state cutoff with bucketStart := start }
  else state

def record (p : RuntimePolicy) (direction : Direction) (bytes : Int64) (now : Nat)
    (state : PolicyState) : PolicyState × Bool :=
  let state := countTransfer direction bytes now state
  if 0 < p.bucketWidthSecs then
    let start := bucketStartOf p.bucketWidthSecs now
    let state := p.pruneForRecord start (unixBefore now p.spec.quota.window) state
    let state := p.addToBucket direction bytes start state
    p.settleQuota state.rolling state
  else p.settleQuota state.counters state

end RuntimePolicy

def PolicyState.reset (now : Nat) (state : PolicyState) : PolicyState :=
  { state with
    generation := state.generation + 1
    counters := 0
    buckets := ∅
    rolling := 0
    bucketStart := 0
    nextCutoff := 0
    lastReset := unixOf now
    overQuota := false }

theorem quotaBucketWidthSecs_pos (window : Int) : 0 < quotaBucketWidthSecs window := by
  unfold quotaBucketWidthSecs
  simp only
  split <;> omega

theorem sumBuckets_eq_sumBy (buckets : GoMap Int Counters) : sumBuckets buckets = buckets.sumBy (fun _ c => c.bytesOnly) := by
  have hl : ∀ (l : List (Σ _ : Int, Counters)) (acc : Counters),
      l.foldl (fun result e => result + e.2.bytesOnly) acc = acc + (l.map fun e => e.2.bytesOnly).sum := by
    intro l
    induction l with
    | nil => intro acc; simp
    | cons _ _ ih => intro acc; simp [ih, add_assoc]
  exact (hl buckets.entries 0).trans (zero_add _)

namespace RuntimePolicy

theorem pruneLoop_spec (width cutoff : Int) (l : List (Σ _ : Int, Counters)) (acc : PolicyState × Int) :
    ∃ next, l.foldl (fun acc e => pruneRound width cutoff acc e.1 e.2) acc =
      ({ acc.1 with
          rolling := acc.1.rolling -
            (l.map fun e => if e.1 + width ≤ cutoff then e.2.bytesOnly else 0).sum
          buckets := l.foldl (fun kept e => if decide (e.1 + width ≤ cutoff) then kept.erase e.1 else kept)
            acc.1.buckets }, next) ∧
      next ≤ acc.2 ∧ ∀ e ∈ l, cutoff < e.1 + width → next ≤ e.1 + width := by
  induction l generalizing acc with
  | nil => exact ⟨acc.2, by simp, le_rfl, by simp⟩
  | cons e _ ih =>
    obtain ⟨next, eq, le, hb⟩ := ih (pruneRound width cutoff acc e.1 e.2)
    by_cases he : e.1 + width ≤ cutoff
    · have hr : pruneRound width cutoff acc e.1 e.2 =
          ({ acc.1 with
              rolling := acc.1.rolling - e.2.bytesOnly
              buckets := acc.1.buckets.erase e.1 }, acc.2) := if_pos he
      refine ⟨next, ?_, by simpa [hr] using le, ?_⟩
      · rw [List.foldl_cons, eq, hr]
        simp [he, sub_sub]
      · intro x hx hl
        rcases List.mem_cons.mp hx with rfl | hx
        · omega
        · exact hb x hx hl
    · have hr : pruneRound width cutoff acc e.1 e.2 =
          (acc.1, if e.1 + width < acc.2 then e.1 + width else acc.2) := if_neg he
      rw [hr] at le
      refine ⟨next, ?_, ?_, ?_⟩
      · rw [List.foldl_cons, eq, hr]
        simp [he]
      · split at le <;> omega
      · intro x hx hl
        rcases List.mem_cons.mp hx with rfl | hx
        · split at le <;> omega
        · exact hb x hx hl

def expiredBucket (p : RuntimePolicy) (cutoff : Int) (key : Int) (_ : Counters) : Bool :=
  decide (key + p.bucketWidthSecs ≤ cutoff)

theorem pruneBucketsLocked_spec (p : RuntimePolicy) (state : PolicyState) (cutoff : Int) :
    ∃ next, p.pruneBucketsLocked state cutoff =
      { state with
        rolling := state.rolling -
          state.buckets.sumBy (fun k c => if k + p.bucketWidthSecs ≤ cutoff then c.bytesOnly else 0)
        buckets := state.buckets.deleteWhere (p.expiredBucket cutoff)
        nextCutoff := next } ∧
      ∀ k c, state.buckets.lookup k = some c → cutoff < k + p.bucketWidthSecs →
        next ≤ k + p.bucketWidthSecs := by
  obtain ⟨next, eq, _, hb⟩ :=
    pruneLoop_spec p.bucketWidthSecs cutoff state.buckets.entries (state, maxInt64)
  refine ⟨next, ?_, ?_⟩
  · simp only [pruneBucketsLocked, AList.foldl, eq]
    rfl
  · intro k c hk hl
    exact hb ⟨k, c⟩ (GoMap.mem_entries_iff.mpr hk) hl

theorem refreshQuota_spec (p : RuntimePolicy) (now : Nat) (s : PolicyState) :
    p.refreshQuota now s = { s with
      buckets := (p.refreshQuota now s).buckets
      rolling := (p.refreshQuota now s).rolling
      nextCutoff := (p.refreshQuota now s).nextCutoff
      overQuota := (p.refreshQuota now s).overQuota } := by
  obtain ⟨_, eq, _⟩ := p.pruneBucketsLocked_spec s (unixBefore now p.spec.quota.window)
  unfold refreshQuota
  split
  · rfl
  · rw [eq]

theorem record_spec (p : RuntimePolicy) (direction : Direction) (bytes : Int64) (now : Nat) (s : PolicyState) :
    let after := p.record direction bytes now s
    let counted := s.counters.add direction bytes
    after.1 = { s with
      counters := if after.2 then { counted with exceededEvents := counted.exceededEvents + 1 } else counted
      buckets := after.1.buckets
      rolling := after.1.rolling
      bucketStart := after.1.bucketStart
      nextCutoff := after.1.nextCutoff
      overQuota := after.1.overQuota
      lastUpdated := unixOf now
      lastSeen := unixOf now } := by
  have hp : ∀ (start cutoff : Int) (t : PolicyState), p.pruneForRecord start cutoff t = { t with
      buckets := (p.pruneForRecord start cutoff t).buckets
      rolling := (p.pruneForRecord start cutoff t).rolling
      bucketStart := (p.pruneForRecord start cutoff t).bucketStart
      nextCutoff := (p.pruneForRecord start cutoff t).nextCutoff } := by
    intro _ cutoff t
    obtain ⟨_, eq, _⟩ := p.pruneBucketsLocked_spec t cutoff
    unfold pruneForRecord
    split
    · rw [eq]
    · rfl
  unfold record
  simp only
  split
  · rw [hp]
    rfl
  · rfl

end RuntimePolicy

end AsterCore
