import AsterCore.TrafficRolling

namespace AsterCore

open List GoMap Counters RuntimePolicy

structure Transfer where
  now : Nat
  direction : Direction
  bytes : Int64
  deriving DecidableEq

def Transfer.counters (r : Transfer) : Counters := Counters.ofBytes r.direction r.bytes

def transfersSinceReset (ops : List UsageOp) : List Transfer :=
  ops.foldl (fun log op =>
    match op with
    | .record direction bytes now => log ++ [⟨now, direction, bytes⟩]
    | .refreshQuota _ => log
    | .reset _ => []) []

def Transfer.live (width cutoff : Int) (r : Transfer) : Bool :=
  cutoff < RuntimePolicy.bucketStartOf width r.now + width

structure WindowInv (p : RuntimePolicy) (log : List Transfer) (cutoff : Int) (state : PolicyState) : Prop where
  rolling : state.rolling = state.buckets.sumBy (fun _ c => c.bytesOnly)
  buckets : ∀ test : Int → Bool,
    state.buckets.sumBy (fun k c => if test k then c.bytesOnly else 0) =
      (log.map fun r =>
        if test (RuntimePolicy.bucketStartOf p.bucketWidthSecs r.now) && r.live p.bucketWidthSecs cutoff
        then r.counters else 0).sum

namespace RuntimePolicy

theorem bucketStartOf_bounds {width : Int} (pos : 0 < width) (now : Nat) :
    bucketStartOf width now ≤ unixOf now ∧ unixOf now < bucketStartOf width now + width := by
  have div := Int.mul_ediv_add_emod (unixOf now) width
  have low := Int.emod_nonneg (unixOf now) (by omega : width ≠ 0)
  have high := Int.emod_lt_of_pos (unixOf now) pos
  unfold bucketStartOf
  rw [Int.mul_comm]
  omega

variable {state : PolicyState} {p : RuntimePolicy} {log : List Transfer} {cutoff cut : Int}

theorem windowInv_empty (p : RuntimePolicy) (cutoff : Int)
    (hb : state.buckets = ∅) (hr : state.rolling = 0) : WindowInv p [] cutoff state := by
  constructor
  · rw [hb, hr]; rfl
  · intro test; rw [hb]; rfl

theorem windowInv_of_usage {s t : PolicyState}
    (inv : WindowInv p log cutoff s) (hr : t.rolling = s.rolling) (hb : t.buckets = s.buckets) : WindowInv p log cutoff t := by
  constructor
  · rw [hr, hb]; exact inv.rolling
  · rw [hb]; exact inv.buckets

theorem prune_windowInv (inv : WindowInv p log cut state) (later : cut ≤ cutoff) :
    WindowInv p log cutoff (p.pruneBucketsLocked state cutoff) := by
  obtain ⟨_, eq, _⟩ := p.pruneBucketsLocked_spec state cutoff
  rw [eq]
  constructor
  · simp only
    rw [inv.rolling, sumBy_deleteWhere, sub_eq_iff_eq_add, ← sumBy_add]
    apply sumBy_congr
    intro k c _
    by_cases he : k + p.bucketWidthSecs ≤ cutoff <;> simp [expiredBucket, he]
  · intro test
    rw [sumBy_deleteWhere]
    have hn := inv.buckets (fun k => test k && decide (cutoff < k + p.bucketWidthSecs))
    refine Eq.trans (sumBy_congr ?_) (hn.trans ?_)
    · intro k c _
      by_cases he : k + p.bucketWidthSecs ≤ cutoff
      · simp [expiredBucket, he]
      · simp [expiredBucket, not_le.mp he]
    · congr 1
      apply map_congr_left
      intro r _
      by_cases hl : cutoff < bucketStartOf p.bucketWidthSecs r.now + p.bucketWidthSecs
      · have : cut < bucketStartOf p.bucketWidthSecs r.now + p.bucketWidthSecs := by omega
        simp [Transfer.live, this]
      · simp [Transfer.live, hl]

theorem sumBy_grow (buckets : GoMap Int Counters) (start : Int) (direction : Direction) (bytes : Int64) (test : Int → Bool) :
    GoMap.sumBy (fun k c => if test k then c.bytesOnly else 0)
        (buckets.insert start (((buckets.lookup start).getD 0).add direction bytes)) =
      buckets.sumBy (fun k c => if test k then c.bytesOnly else 0) +
        (if test start then ofBytes direction bytes else 0) := by
  rw [sumBy_update, add_eq_add_ofBytes, bytesOnly_add, bytesOnly_ofBytes]
  cases buckets.lookup start <;> cases test start <;> simp

theorem addToBucket_windowInv (inv : WindowInv p log cutoff state) (r : Transfer) (hl : r.live p.bucketWidthSecs cutoff) :
    WindowInv p (log ++ [r]) cutoff
      (p.addToBucket r.direction r.bytes (bucketStartOf p.bucketWidthSecs r.now) state) := by
  constructor
  · have hg := sumBy_grow state.buckets (bucketStartOf p.bucketWidthSecs r.now) r.direction r.bytes
      (fun _ => true)
    simp only [if_true] at hg
    simp only [addToBucket, hg, inv.rolling]
    exact add_eq_add_ofBytes _ _ _
  · intro test
    simp only [addToBucket, sumBy_grow, inv.buckets test, map_append]
    simp [hl, Transfer.counters]

section

variable (width : 0 < p.bucketWidthSecs)

include width

section

variable (window : 0 ≤ p.spec.quota.window)

include window

theorem live_now (r : Transfer) : r.live p.bucketWidthSecs (unixBefore r.now p.spec.quota.window) := by
  have := bucketStartOf_bounds width r.now
  have := unixBefore_le_unixOf r.now window
  simp only [Transfer.live, decide_eq_true_eq]
  omega

theorem recordPruning_windowInv
    (inv : WindowInv p log cut state) (r : Transfer) (later : cut ≤ unixBefore r.now p.spec.quota.window) :
    WindowInv p (log ++ [r]) (unixBefore r.now p.spec.quota.window)
      (p.recordPruning r.direction r.bytes r.now state).1 := by
  have counted : WindowInv p log cut (countTransfer r.direction r.bytes r.now state) :=
    windowInv_of_usage inv rfl rfl
  have added := addToBucket_windowInv (prune_windowInv counted later) r (live_now width window r)
  unfold recordPruning
  simp only [width]
  exact windowInv_of_usage added rfl rfl

theorem apply_windowInv {log : List UsageOp} (hs : CutoffSound p state)
    (inv : WindowInv p (transfersSinceReset log) cut state) (op : UsageOp) (hl : cut ≤ unixBefore op.now p.spec.quota.window) :
    WindowInv p (transfersSinceReset (log ++ [op])) (unixBefore op.now p.spec.quota.window)
      (p.apply state op).1 := by
  simp only [transfersSinceReset, foldl_append, foldl_cons]
  cases op with
  | record direction bytes now =>
    have same := (record_eq_recordPruning hs direction bytes now).1
    exact windowInv_of_usage (recordPruning_windowInv width window inv ⟨now, direction, bytes⟩ hl)
      (usage_rolling same) (usage_buckets same)
  | refreshQuota =>
    simp only [apply, refreshQuota, if_neg (not_le.mpr width)]
    exact windowInv_of_usage (prune_windowInv inv hl) rfl rfl
  | reset => exact windowInv_empty p _ rfl rfl

theorem run_windowInv (hb : state.buckets = ∅) (hr : state.rolling = 0)
    (ops : List UsageOp) (ho : ops.Pairwise (fun a b => a.now ≤ b.now)) (now : Nat) (hbo : ∀ op ∈ ops, op.now ≤ now) :
    CutoffSound p (p.run state ops) ∧
      ∃ cut ≤ unixBefore now p.spec.quota.window,
        WindowInv p (transfersSinceReset ops) cut (p.run state ops) := by
  have hs : CutoffSound p state := by
    intro k c hk
    simp [hb] at hk
  refine ⟨run_sound hs ops, ?_⟩
  induction ops using reverseRecOn generalizing now with
  | nil => exact ⟨_, le_rfl, windowInv_empty p _ hb hr⟩
  | append_singleton ops op ih =>
    obtain ⟨hbe, _, hl⟩ := pairwise_append.mp ho
    obtain ⟨_, he, inv⟩ := ih hbe op.now (fun x hx => hl x hx op (by simp))
    have step := apply_windowInv width window (run_sound hs ops) inv op he
    refine ⟨_, unixBefore_mono (hbo op (by simp)) _, ?_⟩
    simpa [run] using step

end

end

theorem windowInv_rolling (inv : WindowInv p log cutoff state) :
    state.rolling = ((log.filter (Transfer.live p.bucketWidthSecs cutoff)).map Transfer.counters).sum := by
  have all := inv.buckets (fun _ => true)
  simp only [if_true, Bool.true_and] at all
  rw [inv.rolling, all]
  clear inv all
  induction log with
  | nil => rfl
  | cons r _ ih => cases h : r.live p.bucketWidthSecs cutoff <;> simp [h, ih]

theorem live_of_recent (hw : 0 < p.bucketWidthSecs) {now : Nat} {r : Transfer}
    (hr : (now : Int) < r.now + p.spec.quota.window) : r.live p.bucketWidthSecs (unixBefore now p.spec.quota.window) := by
  have := bucketStartOf_bounds hw r.now
  simp only [Transfer.live, decide_eq_true_eq]
  unfold unixBefore
  unfold unixOf at this
  omega

theorem recent_of_live (hw : 0 < p.bucketWidthSecs) {now : Nat} {r : Transfer}
    (hl : r.live p.bucketWidthSecs (unixBefore now p.spec.quota.window)) :
    (now : Int) < r.now + p.spec.quota.window + p.bucketWidthSecs * 1000000000 := by
  have := bucketStartOf_bounds hw r.now
  simp only [Transfer.live, decide_eq_true_eq] at hl
  unfold unixBefore at hl
  unfold unixOf at this
  omega

theorem apply_unwindowed (hw : p.bucketWidthSecs = 0)
    (hr : state.rolling = 0) (op : UsageOp) : (p.apply state op).1.rolling = 0 := by
  cases op with
  | record =>
    simp only [apply, record, hw, lt_irrefl]
    exact hr
  | refreshQuota =>
    simp only [apply, refreshQuota, hw, le_refl]
    exact hr
  | reset => rfl

theorem run_unwindowed (hw : p.bucketWidthSecs = 0)
    (hr : state.rolling = 0) (ops : List UsageOp) : (p.run state ops).rolling = 0 := by
  induction ops generalizing state with
  | nil => exact hr
  | cons op _ ih => exact ih (apply_unwindowed hw hr op)

theorem not_live_unwindowed (now : Nat) (r : Transfer) : r.live 0 (unixBefore now 0) = false := by
  have hl : ¬ unixBefore now 0 < bucketStartOf 0 r.now + 0 := by
    unfold unixBefore bucketStartOf
    omega
  exact decide_eq_false hl

end RuntimePolicy

theorem mem_transfersSinceReset {ops : List UsageOp} {r : Transfer} (h : r ∈ transfersSinceReset ops) :
    ∃ op ∈ ops, op.now = r.now := by
  induction ops using reverseRecOn with
  | nil => cases h
  | append_singleton ops op ih =>
    simp only [transfersSinceReset, foldl_append, foldl_cons] at h
    have old : r ∈ transfersSinceReset ops → ∃ x ∈ ops ++ [op], x.now = r.now := by
      intro mem
      obtain ⟨x, hx, eq⟩ := ih mem
      exact ⟨x, by simp [hx], eq⟩
    cases op with
    | record direction bytes now =>
      rcases mem_append.mp h with mem | mem
      · exact old mem
      · rw [mem_singleton.mp mem]
        exact ⟨.record direction bytes now, by simp, rfl⟩
    | refreshQuota => exact old h
    | reset => cases h

section Window

variable (lib : Stdlib) (raw : RawQuotaConfig) (spec : Policy) (ref : Nat)

theorem newRuntimePolicy_width_pos (hw : 0 < spec.quota.window) : 0 < (newRuntimePolicy spec ref).bucketWidthSecs := by
  simp only [newRuntimePolicy, if_pos hw]
  exact quotaBucketWidthSecs_pos _

/-- After every call the cached rolling counters are the sum of the
transfers since the last reset whose bucket ends after `now - window`; `record` decides as if it
pruned on every call, and the window is exact up to one bucket width. -/
theorem rolling_counts_the_window (accepted : parseQuota lib raw = .ok spec.quota)
    (id identity : String) (generation : UInt64) (created : Int) (ops : List UsageOp) (op : UsageOp)
    (ordered : (ops ++ [op]).Pairwise (fun a b => a.now ≤ b.now)) : let p := newRuntimePolicy spec ref
    let fresh := newPolicyState id identity generation created
    let log := transfersSinceReset (ops ++ [op])
    let live := Transfer.live p.bucketWidthSecs (unixBefore op.now spec.quota.window)
    (p.run fresh (ops ++ [op])).rolling = ((log.filter live).map Transfer.counters).sum ∧
      (p.run fresh (ops ++ [op])).rolling = (p.runPruning fresh (ops ++ [op])).rolling ∧
      (p.run fresh (ops ++ [op])).overQuota = (p.runPruning fresh (ops ++ [op])).overQuota ∧
      (p.apply (p.run fresh ops) op).2 = (p.applyPruning (p.runPruning fresh ops) op).2 ∧
      (∀ r ∈ log, (op.now : Int) < r.now + spec.quota.window → live r) ∧
      ∀ r ∈ log, live r → (op.now : Int) < r.now + spec.quota.window + p.bucketWidthSecs * 1000000000 := by
  intro p fresh log live
  obtain ⟨hb, _, last⟩ := pairwise_append.mp ordered
  have hs : CutoffSound p fresh := by
    intro k c hk
    simp [fresh, newPolicyState] at hk
  have same := run_eq_runPruning hs rfl (ops ++ [op])
  have hv := apply_eq_applyPruning (run_sound hs ops)
    (run_eq_runPruning hs rfl ops) op
  have hg : (p.run fresh (ops ++ [op])).rolling = ((log.filter live).map Transfer.counters).sum ∧
      (∀ r ∈ log, (op.now : Int) < r.now + spec.quota.window → live r) ∧
      ∀ r ∈ log, live r → (op.now : Int) < r.now + spec.quota.window + p.bucketWidthSecs * 1000000000 := by
    rcases parseQuota_window accepted with hn | ⟨low, _⟩
    · have width : p.bucketWidthSecs = 0 := by simp [p, newRuntimePolicy, hn]
      have hd : ∀ r, live r = false := by
        intro r
        simp only [live, width, hn]
        exact not_live_unwindowed op.now r
      refine ⟨?_, ?_, fun r _ ha => ?_⟩
      · rw [run_unwindowed width rfl, filter_eq_nil_iff.mpr (by simp [hd])]
        rfl
      · intro r hr _
        obtain ⟨x, hx, _⟩ := mem_transfersSinceReset hr
        have he : x.now ≤ op.now := by
          rcases mem_append.mp hx with mem | mem
          · exact last x mem op (by simp)
          · rw [mem_singleton.mp mem]
        omega
      · rw [hd r] at ha
        cases ha
    · have window : 0 < spec.quota.window := lt_of_lt_of_le (by decide) low
      have width := newRuntimePolicy_width_pos spec ref window
      obtain ⟨hso, _, he, inv⟩ := run_windowInv width (le_of_lt window)
        (rfl : fresh.buckets = ∅) rfl ops hb op.now (fun x hx => last x hx op (by simp))
      have step := apply_windowInv width (le_of_lt window) hso inv op he
      have hf : p.run fresh (ops ++ [op]) = (p.apply (p.run fresh ops) op).1 := by
        simp [run]
      refine ⟨?_, fun r _ hre => live_of_recent width hre,
        fun r _ ha => recent_of_live width ha⟩
      rw [hf]
      exact windowInv_rolling step
  exact ⟨hg.1, usage_rolling same, usage_overQuota same, hv.2, hg.2⟩

end Window

def hourlyQuotaRaw : RawQuotaConfig := { totalBytes := 100, window := "1h" }

def hourlyQuota : QuotaConfig :=
  { totalBytes := 100, window := durationHour, overageUploadBPS := 64000, overageDownloadBPS := 256000 }

def hourlyPolicy : Policy := { id := "global", kind := .global, quota := hourlyQuota }

/-- 90 bytes up at noon, 20 bytes down two hours later: only the second transfer is left. -/
theorem rolling_counts_the_window_two_hours :
    ((newRuntimePolicy hourlyPolicy 0).run (newPolicyState "global" "global-0" 1 1786017600)
      ([.record .upload 90 1786017600000000000, .refreshQuota 1786019400000000000] ++
        [.record .download 20 1786024800000000000])).rolling = { downloadBytes := 20 } :=
  (rolling_counts_the_window (asciiStdlib id (fun _ => "1h0m0s")) hourlyQuotaRaw hourlyPolicy 0 (by decide)
    "global" "global-0" 1 1786017600 [.record .upload 90 1786017600000000000, .refreshQuota 1786019400000000000]
    (.record .download 20 1786024800000000000) (by decide)).1.trans (by decide)

end AsterCore
