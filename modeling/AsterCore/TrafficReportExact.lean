import AsterCore.TrafficReportRun

namespace AsterCore

open List ReportHistory ReportSeries ReportTable

/-- Day buckets are complete for every accepted configuration: its daily retention is at least a day. -/
theorem day_report_exact (lib : Stdlib) (raw : RawReportsConfig) (reports : ReportsConfig)
    (accepted : parseReports lib raw = .ok reports) (ops : List ReportOp)
    (ordered : (ops.map ReportOp.now).Pairwise (· ≤ ·)) (key : String) (from_ to_ : Int) (bucket : UsageBucket)
    (found : bucket ∈ (ops.foldl (ReportTable.apply reports) {}).query key .day from_ to_) :
    bucket.counters = periodSum .day (logOf (ReportHistory.run reports {} ops).log key) bucket.start := by
  have hb := parseReports_accepted accepted
  rw [← run_table reports {} ops] at found
  exact run_exact .day reports hb.hourly.1 hb.daily.1 ops ordered key from_ to_ found

def defaultReports : ReportsConfig :=
  { enabled := true, hourlyRetention := defaultHourlyRetention, dailyRetention := defaultDailyRetention,
    monthlyRetention := defaultMonthlyRetention, orphanRetention := defaultOrphanRetention }

/-- 7 bytes at noon, a rollup two hours later, 5 bytes after it: the day shows 12 bytes. -/
theorem day_report_exact_noon : ⟨1785974400, { uploadBytes := 12 }⟩ ∈
        (([.recordReports ["global:all"] .upload 7 1786017600000000000, .rollup 1786024800000000000,
          .recordReports ["global:all"] .upload 5 1786024860000000000] : List ReportOp).foldl
            (ReportTable.apply defaultReports) {}).query "global:all" .day 1785974400 1786060800 ∧
      ({ uploadBytes := 12 } : Counters) = periodSum .day (logOf (ReportHistory.run defaultReports {}
        [.recordReports ["global:all"] .upload 7 1786017600000000000, .rollup 1786024800000000000,
          .recordReports ["global:all"] .upload 5 1786024860000000000]).log "global:all") 1785974400 :=
  ⟨by decide, day_report_exact (asciiStdlib id (fun _ => "")) {} defaultReports (by decide) _ (by decide)
    "global:all" 1785974400 1786060800 ⟨1785974400, { uploadBytes := 12 }⟩ (by decide)⟩

namespace ReportSeries

theorem shown_of_closed {g : ReportPeriod} {series : ReportSeries} {b : Int} (ha : (g.table series).lookup b = none)
    (hcl : ∀ h c, series.hourly.lookup h = some c → g.start h = b → series.isRolled h = true) : series.shown g b = 0 := by
  unfold shown openSum
  rw [ha, Option.getD_none, zero_add]
  refine Eq.trans (GoMap.sumBy_congr ?_) (GoMap.sumBy_zero series.hourly)
  intro h c hc
  rw [if_neg]
  rintro ⟨eq, hio⟩
  rw [hcl h c hc eq] at hio
  cases hio

theorem bump_source {g : ReportPeriod} {series : ReportSeries} {now : Nat} {b : Int}
    (hn : series.shown g b = 0) (hio : series.isRolled (hourStart now) = false)
    (hh : g.start (unixOf now) = b) (increment : ReportIncrement) :
    ((series.bump now increment).source g.granularity).lookup b = some increment.value := by
  obtain ⟨hv, ht⟩ := source_spec g (series.bump now increment) b
  have hs : (series.bump now increment).shown g b = increment.value := by
    unfold shown at hn ⊢
    rw [bump_table, bump_openSum g series now increment hio, if_pos hh, ← add_assoc, hn, zero_add]
  have some := ht.mpr (.inr ⟨hourStart now, _, by rw [bump_hourly, if_pos rfl],
    by rw [g.start_hour]; exact hh, hio⟩)
  obtain ⟨c, hc⟩ := Option.isSome_iff_exists.mp some
  rw [hc, Option.getD_some, hs] at hv
  rw [hc, hv]

end ReportSeries

namespace ReportTable

theorem rollup_length (reports : ReportsConfig) (now : Nat) (t : ReportTable) :
    (t.rollupAndPrune reports now).reports.entries.length ≤ t.reports.entries.length := by
  have hl : ∀ (l : List (Σ _ : String, Nat)) (t : ReportTable),
      (rollupLoop reports now l t).reports.entries.length ≤ t.reports.entries.length := by
    intro l
    induction l with
    | nil => exact fun t => le_refl _
    | cons e _ ih =>
      intro t
      refine le_trans (ih (t.rollupEntry reports now e.1 e.2)) ?_
      unfold rollupEntry
      simp only
      split
      · exact (kerase_sublist e.1 t.reports.entries).length_le
      · exact le_refl _
  exact hl t.reports.entries t

variable {t : ReportTable}

theorem recordKey_landed (hr : t.reports.entries.length < maxReportSeries)
    (increment : ReportIncrement) (now : Nat) (key : String) : ∃ t', t.recordKey increment now key = (t', true) := by
  unfold recordKey reportSeries
  cases t.reports.lookup key with
  | some => exact ⟨_, rfl⟩
  | none =>
    simp only [Nat.not_le.mpr hr]
    exact ⟨_, rfl⟩

theorem recordKey_there {t' : ReportTable} {increment : ReportIncrement} {now : Nat} {key : String}
    (h : t.recordKey increment now key = (t', true)) : ∃ ref, t'.reports.lookup key = some ref := by
  unfold recordKey at h
  rcases hf : t.reportSeries key with ⟨mid, _ | ref⟩
  · rw [hf] at h
    cases h
  · rw [hf] at h
    cases h
    exact ⟨ref, (reportSeries_found hf : mid.reports.lookup key = some ref)⟩

theorem apply_disabled {reports : ReportsConfig} (off : reports.enabled = false)
    (hn : t.reports = ∅) (op : ReportOp) : (t.apply reports op).reports = ∅ := by
  cases op with
  | recordReports => simpa [apply, recordReports, recordReport, off] using hn
  | recordReportConnections =>
    simpa [apply, recordReportConnections, recordReport, off] using hn
  | recordReportExceeded => simpa [apply, recordReportExceeded, recordReport, off] using hn
  | rollup =>
    unfold apply rollupAndPrune
    rw [hn]
    exact hn

theorem run_disabled {reports : ReportsConfig} (off : reports.enabled = false) (ops : List ReportOp)
    (t : ReportTable) (hn : t.reports = ∅) : (ops.foldl (apply reports) t).reports = ∅ := by
  induction ops generalizing t with
  | nil => exact hn
  | cons op _ ih => exact ih _ (apply_disabled off hn op)

end ReportTable

/-- One connection at the epoch, a rollup as soon as the month is older than the retention, and
one more connection while that month still lasts. -/
def partialMonth (retention : Int) : List ReportOp :=
  [.recordReportConnections ["global:all"] 1 0, .rollup (retention + 1000000000).toNat,
    .recordReportConnections ["global:all"] 1 (retention + 1000000000).toNat]

theorem partialMonth_rollup {reports : ReportsConfig} {now : Nat} {series : ReportSeries}
    (old : 0 < unixBefore now reports.monthlyRetention) (hcl : 0 < hourStart now)
    (hf : series = ({ key := "global:all" } : ReportSeries).bump 0 (.connections 1)) (key : String) :
    let rolled := if (series.rollupAndPrune reports now).isEmpty then { key := key }
      else series.rollupAndPrune reports now
    rolled.shown .month 0 = 0 ∧ rolled.isRolled (hourStart now) = false := by
  have hh : ∀ h, series.hourly.lookup h = if h = 0 then some { connections := 1 } else none := by
    intro h
    rw [hf, bump_hourly]
    rfl
  have hm : ∀ h, series.isRolled h = false := by
    intro h
    rw [hf]
    rfl
  intro rolled
  have he : ∀ h c, series.hourly.lookup h = some c → monthStart h = 0 → h < hourStart now := by
    intro h c hc _
    rw [hh] at hc
    split at hc
    next hz => rw [hz]; exact hcl
    · cases hc
  have hp := rollup_pruned (g := .month) old he
  simp only [rolled]
  split
  · exact ⟨rfl, rfl⟩
  · refine ⟨shown_of_closed hp.1 hp.2, ?_⟩
    cases mark : (series.rollupAndPrune reports now).isRolled (hourStart now) with
    | false => rfl
    | true =>
      rcases rollup_rolled mark with was | ⟨_, he⟩
      · rw [hm] at was; cases was
      · exact absurd he (lt_irrefl _)

theorem partialMonth_run {reports : ReportsConfig} (on : reports.enabled = true) (hl : durationDay ≤ reports.monthlyRetention)
    (hsh : reports.monthlyRetention + 1000000000 < 31 * durationDay) : ⟨0, { connections := 1 }⟩ ∈ (run reports {}
        (partialMonth reports.monthlyRetention)).table.query "global:all" .month 0 1 ∧
      periodSum .month (logOf (run reports {} (partialMonth reports.monthlyRetention)).log
        "global:all") 0 = { connections := 2 } := by
  unfold durationDay durationHour at hl hsh
  unfold partialMonth
  generalize later : (reports.monthlyRetention + 1000000000).toNat = now
  have hj : monthStart (unixOf now) = 0 := by
    unfold monthStart unixOf
    rw [firstOfMonth_january (by omega) (by omega)]
    rfl
  have hc : (0 : Int) < hourStart now := by
    unfold hourStart unixOf
    omega
  have old : (0 : Int) < unixBefore now reports.monthlyRetention := by
    unfold unixBefore
    omega
  obtain ⟨first, hhf⟩ := recordKey_landed (t := {}) (by decide) (.connections 1) 0 "global:all"
  obtain ⟨wf, hb⟩ := recordKey_cases wellFormed_empty hhf
  have hr : (first.rollupAndPrune reports now).reports.entries.length < maxReportSeries := by
    refine lt_of_le_of_lt (rollup_length reports now first) ?_
    cases hhf
    decide
  obtain ⟨second, hh⟩ := recordKey_landed hr (.connections 1) now "global:all"
  obtain ⟨_, ha⟩ := recordKey_cases (rollup_wellFormed reports now wf) hh
  have run : run reports {} [.recordReportConnections ["global:all"] 1 0, .rollup now,
      .recordReportConnections ["global:all"] 1 now] =
        ⟨second, [("global:all", 0, .connections 1), ("global:all", now, .connections 1)]⟩ := by
    simp [ReportHistory.run, ReportHistory.apply, ReportHistory.record, on, ReportHistory.recordKey, hhf,
      hh]
  have hf : first.seriesAt "global:all" =
      ({ key := "global:all" } : ReportSeries).bump 0 (.connections 1) := by
    rw [hb]
    rfl
  obtain ⟨hg, hio⟩ := partialMonth_rollup old hc hf "global:all"
  rw [← rollup_seriesAt reports now wf] at hg hio
  have hs : second.seriesAt "global:all" =
      ((first.rollupAndPrune reports now).seriesAt "global:all").bump now (.connections 1) := by
    rw [ha]
    simp
  obtain ⟨ref, ht⟩ := recordKey_there hh
  have held : second.series ref = second.seriesAt "global:all" := by
    unfold seriesAt
    rw [ht]
  rw [run]
  refine ⟨?_, ?_⟩
  · unfold query
    simp only [ht, held, hs]
    refine mem_buckets.mpr ⟨?_, by decide, by decide⟩
    exact bump_source hg hio hj (.connections 1)
  · have epoch : monthStart (unixOf 0) = 0 := by decide
    simp only [logOf, filter_cons, decide_true, if_true, filter_nil, map_cons, map_nil,
      periodSum, ReportPeriod.start, hj, sum_cons]
    decide

theorem month_report_exact_iff (lib : Stdlib) (raw : RawReportsConfig) (reports : ReportsConfig)
    (accepted : parseReports lib raw = .ok reports) :
    (∀ ops : List ReportOp, (ops.map ReportOp.now).Pairwise (· ≤ ·) →
      ∀ key from_ to_, ∀ bucket ∈ (ops.foldl (ReportTable.apply reports) {}).query key .month from_ to_,
        bucket.counters = periodSum .month (logOf (ReportHistory.run reports {} ops).log key) bucket.start) ↔
      (reports.enabled = false ∨ 31 * durationDay ≤ reports.monthlyRetention) := by
  have hb := parseReports_accepted accepted
  constructor
  · intro exact
    by_contra hs
    simp only [not_or, Bool.not_eq_false] at hs
    -- retentions are whole minutes, so a second fits between the retention and 31 days
    have hm := hb.monthly.2
    have gap : reports.monthlyRetention + 1000000000 < 31 * durationDay := by
      unfold durationMinute at hm
      unfold durationDay durationHour at hs ⊢
      omega
    obtain ⟨hf, sum⟩ := partialMonth_run hs.1 hb.monthly.1 gap
    rw [run_table] at hf
    have hw := exact _ (by simp [partialMonth, ReportOp.now]) "global:all" 0 1 _ hf
    rw [sum] at hw
    revert hw
    decide
  · intro hc ops ho key from_ to_ _ hf
    rcases hc with off | hl
    · unfold query at hf
      rw [run_disabled off ops {} rfl] at hf
      cases hf
    · rw [← run_table reports {} ops] at hf
      exact run_exact .month reports hb.hourly.1 hl ops ho key from_ to_ hf

/-- August 2026: 100 bytes on the 1st, a rollup on the 3rd and 50 bytes on the 3rd. -/
def augustOps : List ReportOp :=
  [.recordReports ["global:all"] .upload 100 1785549600000000000, .rollup 1785722400000000000,
    .recordReports ["global:all"] .upload 50 1785722460000000000]

set_option maxRecDepth 4000 in
theorem month_report_exact_iff_default : ⟨1785542400, { uploadBytes := 150 }⟩ ∈
        (augustOps.foldl (ReportTable.apply defaultReports) {}).query "global:all" .month 1785542400 1788220800 ∧
      ({ uploadBytes := 150 } : Counters) =
        periodSum .month (logOf (ReportHistory.run defaultReports {} augustOps).log "global:all") 1785542400 :=
  ⟨by decide, (month_report_exact_iff (asciiStdlib id (fun _ => "")) {} defaultReports (by decide)).mpr (by decide)
    augustOps (by decide) "global:all" 1785542400 1788220800 ⟨1785542400, { uploadBytes := 150 }⟩ (by decide)⟩

def shortReports : ReportsConfig := { defaultReports with monthlyRetention := durationDay }

set_option maxRecDepth 4000 in
/-- With a monthly retention of a day the month shows 50 bytes. -/
theorem month_report_partial : parseReports (asciiStdlib id (fun _ => "")) { monthlyRetention := "24h" } = .ok shortReports ∧
      ¬ ∀ bucket ∈ (augustOps.foldl (ReportTable.apply shortReports) {}).query "global:all" .month 1785542400 1788220800,
        bucket.counters = periodSum .month (logOf (ReportHistory.run shortReports {} augustOps).log "global:all")
          bucket.start :=
  ⟨by decide, fun all => absurd (all ⟨1785542400, { uploadBytes := 50 }⟩ (by decide)) (by decide)⟩

end AsterCore
