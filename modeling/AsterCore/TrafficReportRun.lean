import AsterCore.TrafficReportTable

namespace AsterCore

open ReportTable ReportSeries

structure ReportHistory where
  table : ReportTable := {}
  log : List (String × Nat × ReportIncrement) := []

inductive ReportOp
  | recordReports (keys : List String) (direction : Direction) (bytes : Int64) (now : Nat)
  | recordReportConnections (keys : List String) (count : Int64) (now : Nat)
  | recordReportExceeded (keys : List String) (now : Nat)
  | rollup (now : Nat)

def ReportOp.now : ReportOp → Nat
  | .recordReports _ _ _ now => now
  | .recordReportConnections _ _ now => now
  | .recordReportExceeded _ now => now
  | .rollup now => now

def logOf (log : List (String × Nat × ReportIncrement)) (key : String) : ReportLog :=
  (log.filter fun e => decide (e.1 = key)).map Prod.snd

theorem logOf_concat (log : List (String × Nat × ReportIncrement)) (key other : String) (now : Nat)
    (increment : ReportIncrement) :
    logOf (log ++ [(key, now, increment)]) other =
      if other = key then logOf log other ++ [(now, increment)] else logOf log other := by
  unfold logOf
  by_cases hs : other = key
  · subst hs; simp
  · simp [hs, Ne.symm hs]

namespace ReportHistory

def recordKey (increment : ReportIncrement) (now : Nat) (h : ReportHistory) (key : String) : ReportHistory :=
  let (table, landed) := h.table.recordKey increment now key
  { table := table, log := if landed then h.log ++ [(key, now, increment)] else h.log }

def record (reports : ReportsConfig) (increment : ReportIncrement) (keys : List String) (now : Nat)
    (h : ReportHistory) : ReportHistory :=
  if reports.enabled then keys.foldl (recordKey increment now) h else h

def apply (reports : ReportsConfig) (h : ReportHistory) : ReportOp → ReportHistory
  | .recordReports keys direction bytes now => h.record reports (.transfer direction bytes) keys now
  | .recordReportConnections keys count now => h.record reports (.connections count) keys now
  | .recordReportExceeded keys now => h.record reports .exceeded keys now
  | .rollup now => { h with table := h.table.rollupAndPrune reports now }

def run (reports : ReportsConfig) (h : ReportHistory) (ops : List ReportOp) : ReportHistory :=
  ops.foldl (apply reports) h

end ReportHistory

def ReportTable.apply (reports : ReportsConfig) (t : ReportTable) : ReportOp → ReportTable
  | .recordReports keys direction bytes now => t.recordReports (some reports) keys direction bytes now
  | .recordReportConnections keys count now => t.recordReportConnections (some reports) keys count now
  | .recordReportExceeded keys now => t.recordReportExceeded (some reports) keys now
  | .rollup now => t.rollupAndPrune reports now

namespace ReportHistory

theorem record_table (reports : ReportsConfig) (increment : ReportIncrement) (keys : List String) (now : Nat)
    (h : ReportHistory) :
    (h.record reports increment keys now).table = h.table.recordReport (some reports) increment keys now := by
  have hl : (keys.foldl (recordKey increment now) h).table =
      keys.foldl (fun t key => (t.recordKey increment now key).1) h.table := by
    induction keys generalizing h with
    | nil => rfl
    | cons key _ ih => exact ih (h.recordKey increment now key)
  unfold record recordReport
  simp only
  split
  · exact hl
  · rfl

theorem apply_table (reports : ReportsConfig) (h : ReportHistory) (op : ReportOp) :
    (h.apply reports op).table = h.table.apply reports op := by
  cases op with
  | recordReports keys direction bytes now | recordReportConnections keys count now | recordReportExceeded keys now => exact record_table reports _ keys now h
  | rollup => rfl

theorem run_table (reports : ReportsConfig) (h : ReportHistory) (ops : List ReportOp) :
    (h.run reports ops).table = ops.foldl (ReportTable.apply reports) h.table := by
  induction ops generalizing h with
  | nil => rfl
  | cons op _ ih =>
    refine Eq.trans (ih (h.apply reports op)) ?_
    rw [apply_table]
    rfl

/-- What a reader of one key relies on after operations up to `last`: everything up to `cut` is
pruned, everything after it is complete, and no hour of the future is closed. -/
structure SeriesInv (g : ReportPeriod) (reports : ReportsConfig) (last : Nat) (log : ReportLog)
    (series : ReportSeries) : Prop where
  rolled : ∀ hour, series.isRolled hour = true → hour < hourStart last
  account : ∃ cut ≤ unixBefore last (g.retention reports), Kept g log cut series ∧ Gone g cut series

structure Inv (g : ReportPeriod) (reports : ReportsConfig) (last : Nat) (h : ReportHistory) : Prop where
  wellFormed : h.table.WellFormed
  series : ∀ key, SeriesInv g reports last (logOf h.log key) (h.table.seriesAt key)

variable {g : ReportPeriod} {reports : ReportsConfig} {last now : Nat}

variable {log : ReportLog} {series : ReportSeries} {h : ReportHistory}

theorem seriesInv_later (inv : SeriesInv g reports last log series) (hl : last ≤ now) : SeriesInv g reports now log series := by
  obtain ⟨cut, hh, ha⟩ := inv.account
  refine ⟨fun hour h => lt_of_lt_of_le (inv.rolled hour h) (hourStart_mono hl), cut, ?_, ha⟩
  exact le_trans hh (unixBefore_mono hl _)

section

variable (inv : SeriesInv g reports now log series)

include inv

theorem seriesInv_bump (long : g.maxSeconds * 1000000000 ≤ g.retention reports) (increment : ReportIncrement) :
    SeriesInv g reports now (log ++ [(now, increment)]) (series.bump now increment) := by
  obtain ⟨cut, hh, hk, hg⟩ := inv.account
  have hio : series.isRolled (hourStart now) = false := by
    cases h : series.isRolled (hourStart now) with
    | false => rfl
    | true => exact absurd (inv.rolled _ h) (lt_irrefl _)
  have hr : cut ≤ g.start (unixOf now) := by
    have hs := g.start_bounds (unixOf now)
    unfold unixBefore at hh
    unfold unixOf at hs ⊢
    omega
  exact ⟨inv.rolled, cut, hh, bump_kept hk now increment hio,
    bump_gone hg now increment hr⟩

theorem seriesInv_rollup (hh : durationDay ≤ reports.hourlyRetention) (hl : g.maxSeconds * 1000000000 ≤ g.retention reports) :
    SeriesInv g reports now log (series.rollupAndPrune reports now) := by
  obtain ⟨cut, _, hk, hg⟩ := inv.account
  refine ⟨?_, max cut (unixBefore now (g.retention reports)), by omega,
    rollup_kept hh hk, rollup_gone hg hl⟩
  intro hour h
  rcases rollup_rolled h with old | ⟨_, he⟩
  · exact inv.rolled hour old
  · exact he

theorem seriesInv_removed (he : series.isEmpty = true) (key : String) : SeriesInv g reports now log { key := key } := by
  obtain ⟨cut, hh, hk, _⟩ := inv.account
  refine ⟨fun hour h => by simp [isRolled] at h, cut, hh, ?_, ?_⟩
  · intro b hb
    rw [← hk b hb, shown_of_isEmpty he]
    cases g <;> rfl
  · intro b _
    refine ⟨by cases g <;> rfl, fun h c hc => ?_⟩
    simp at hc

end

theorem recordKey_inv (inv : Inv g reports now h)
    (hl : g.maxSeconds * 1000000000 ≤ g.retention reports) (increment : ReportIncrement) (key : String) :
    Inv g reports now (h.recordKey increment now key) := by
  rcases hs : h.table.recordKey increment now key with ⟨t, landed⟩
  obtain ⟨wf, ha⟩ := recordKey_cases inv.wellFormed hs
  unfold recordKey
  simp only [hs]
  refine ⟨wf, fun other => ?_⟩
  simp only [ha other]
  cases landed with
  | false => simpa using inv.series other
  | true =>
    simp only [if_true, logOf_concat]
    by_cases same : other = key
    · subst same
      simp only [if_true]
      exact seriesInv_bump (inv.series other) hl increment
    · simp only [same]
      exact inv.series other

theorem record_inv (inv : Inv g reports now h)
    (hl : g.maxSeconds * 1000000000 ≤ g.retention reports) (increment : ReportIncrement)
    (keys : List String) : Inv g reports now (h.record reports increment keys now) := by
  unfold record
  split
  · induction keys generalizing h with
    | nil => exact inv
    | cons key _ ih => exact ih (recordKey_inv inv hl increment key)
  · exact inv

theorem rollup_inv (inv : Inv g reports now h) (hh : durationDay ≤ reports.hourlyRetention)
    (hl : g.maxSeconds * 1000000000 ≤ g.retention reports) :
    Inv g reports now { h with table := h.table.rollupAndPrune reports now } := by
  refine ⟨rollup_wellFormed reports now inv.wellFormed, fun key => ?_⟩
  have hr := seriesInv_rollup (inv.series key) hh hl
  simp only [rollup_seriesAt reports now inv.wellFormed]
  split
  next he => exact seriesInv_removed hr he key
  · exact hr

theorem apply_inv (inv : Inv g reports last h) (op : ReportOp) (hl : last ≤ op.now)
    (hh : durationDay ≤ reports.hourlyRetention) (long : g.maxSeconds * 1000000000 ≤ g.retention reports) :
    Inv g reports op.now (h.apply reports op) := by
  have here : Inv g reports op.now h := ⟨inv.wellFormed, fun key => seriesInv_later (inv.series key) hl⟩
  cases op with
  | recordReports keys direction bytes now | recordReportConnections keys count now | recordReportExceeded keys now => exact record_inv here long _ keys
  | rollup => exact rollup_inv here hh long

theorem run_inv (inv : Inv g reports last h) (ops : List ReportOp) (ho : (last :: ops.map ReportOp.now).Pairwise (· ≤ ·))
    (hh : durationDay ≤ reports.hourlyRetention) (hl : g.maxSeconds * 1000000000 ≤ g.retention reports) :
    ∃ now, Inv g reports now (h.run reports ops) := by
  induction ops generalizing h last with
  | nil => exact ⟨last, inv⟩
  | cons op _ ih =>
    obtain ⟨ha, hr⟩ := List.pairwise_cons.mp ho
    exact ih (apply_inv inv op (ha op.now (by simp)) hh hl) hr

theorem inv_start (g : ReportPeriod) (reports : ReportsConfig) : Inv g reports 0 {} := by
  refine ⟨wellFormed_empty, fun key => ⟨fun hour h => ?_, _, le_refl _, ?_, ?_⟩⟩
  · simp [seriesAt, isRolled] at h
  · intro b _
    cases g <;> rfl
  · intro b _
    refine ⟨by cases g <;> rfl, fun h c hc => ?_⟩
    simp [seriesAt] at hc

theorem run_exact (g : ReportPeriod) (reports : ReportsConfig) (hh : durationDay ≤ reports.hourlyRetention)
    (hl : g.maxSeconds * 1000000000 ≤ g.retention reports) (ops : List ReportOp)
    (ho : (ops.map ReportOp.now).Pairwise (· ≤ ·)) (key : String) (from_ to_ : Int) {bucket : UsageBucket}
    (hf : bucket ∈ (run reports {} ops).table.query key g.granularity from_ to_) :
    bucket.counters = periodSum g (logOf (run reports {} ops).log key) bucket.start := by
  obtain ⟨_, inv⟩ := run_inv (inv_start g reports) ops
    (List.pairwise_cons.mpr ⟨fun _ _ => Nat.zero_le _, ho⟩) hh hl
  obtain ⟨_, _, hk, hg⟩ := (inv.series key).account
  unfold query at hf
  unfold seriesAt at hk hg
  split at hf
  · cases hf
  next ht =>
    simp only [ht] at hk hg
    exact source_exact hk hg (mem_buckets.mp hf).1

end ReportHistory

end AsterCore
