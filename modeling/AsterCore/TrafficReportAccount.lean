import AsterCore.TrafficRollup

namespace AsterCore

open List GoMap Counters

abbrev ReportLog := List (Nat × ReportIncrement)

def periodSum (g : ReportPeriod) (log : ReportLog) (b : Int) : Counters :=
  (log.map fun e => if g.start (unixOf e.1) = b then e.2.value else 0).sum

def ReportSeries.openSum (g : ReportPeriod) (series : ReportSeries) (b : Int) : Counters :=
  series.hourly.sumBy (fun h c => if g.start h = b ∧ series.isRolled h = false then c else 0)

def ReportSeries.shown (g : ReportPeriod) (series : ReportSeries) (b : Int) : Counters :=
  ((g.table series).lookup b).getD 0 + series.openSum g b

def Kept (g : ReportPeriod) (log : ReportLog) (cut : Int) (series : ReportSeries) : Prop :=
  ∀ b, cut ≤ b → series.shown g b = periodSum g log b

def Gone (g : ReportPeriod) (cut : Int) (series : ReportSeries) : Prop :=
  ∀ b, b < cut → (g.table series).lookup b = none ∧
    ∀ h c, series.hourly.lookup h = some c → g.start h = b → series.isRolled h = true

theorem periodSum_concat (g : ReportPeriod) (log : ReportLog) (now : Nat) (increment : ReportIncrement) (b : Int) :
    periodSum g (log ++ [(now, increment)]) b =
      periodSum g log b + (if g.start (unixOf now) = b then increment.value else 0) := by
  simp [periodSum]

namespace ReportSeries

variable {series : ReportSeries} {g : ReportPeriod} {log : ReportLog} {cut b : Int}

theorem shown_of_isEmpty (he : series.isEmpty = true) (g : ReportPeriod) (b : Int) : series.shown g b = 0 := by
  unfold isEmpty at he
  simp only [Bool.and_eq_true, List.isEmpty_iff] at he
  have ht : (g.table series).lookup b = none := by
    cases h : (g.table series).lookup b with
    | none => rfl
    | some =>
      have mem := mem_entries_iff.mpr h
      cases g <;> simp [ReportPeriod.table, he] at mem
  unfold shown openSum sumBy
  simp [ht, he]

theorem bump_table (g : ReportPeriod) (series : ReportSeries) (now : Nat) (increment : ReportIncrement) :
    g.table (series.bump now increment) = g.table series := by
  cases g <;> rfl

theorem bump_hourly (series : ReportSeries) (now : Nat) (increment : ReportIncrement) (h : Int) :
    (series.bump now increment).hourly.lookup h =
      if h = hourStart now then some ((series.hourly.lookup h).getD 0 + increment.value)
      else series.hourly.lookup h := by
  simp only [bump, lookup_insert_eq, ReportIncrement.apply_eq_add]
  split
  next hs => rw [hs]
  · rfl

theorem bump_openSum (g : ReportPeriod) (series : ReportSeries) (now : Nat) (increment : ReportIncrement)
    (hio : series.isRolled (hourStart now) = false) (b : Int) :
    (series.bump now increment).openSum g b =
      series.openSum g b + (if g.start (unixOf now) = b then increment.value else 0) := by
  have hr : (fun h c => if g.start h = b ∧ (series.bump now increment).isRolled h = false then c else 0) =
      fun h (c : Counters) => if g.start h = b ∧ series.isRolled h = false then c else 0 := rfl
  unfold openSum
  rw [hr]
  simp only [bump, sumBy_update, ReportIncrement.apply_eq_add, hio, and_true, g.start_hour now]
  split <;> cases series.hourly.lookup (hourStart now) <;> simp

theorem bump_kept (hk : Kept g log cut series) (now : Nat) (increment : ReportIncrement)
    (hio : series.isRolled (hourStart now) = false) : Kept g (log ++ [(now, increment)]) cut (series.bump now increment) := by
  intro b hb
  unfold shown
  rw [bump_table, bump_openSum g series now increment hio, periodSum_concat, ← hk b hb]
  exact (add_assoc _ _ _).symm

theorem bump_gone (hg : Gone g cut series) (now : Nat) (increment : ReportIncrement) (hr : cut ≤ g.start (unixOf now)) :
    Gone g cut (series.bump now increment) := by
  intro b hb
  obtain ⟨ha, hd⟩ := hg b hb
  refine ⟨by rw [bump_table]; exact ha, ?_⟩
  intro h c hc eq
  rw [bump_hourly] at hc
  split at hc
  next hs =>
    rw [hs, g.start_hour] at eq
    omega
  · exact hd h c hc eq

variable {reports : ReportsConfig} {now : Nat}

/-- Moving the closed hours into a table changes nothing a reader can see: an hour old enough
to be dropped is closed first. -/
theorem rollHours_shown (hh : durationDay ≤ reports.hourlyRetention) (g : ReportPeriod) (series : ReportSeries) (b : Int) :
    (series.rollHours reports now).shown g b = series.shown g b := by
  have ht := rollLoop_table reports now g series.hourly.entries series.hourly.keys_nodup series b
  have hm : (series.hourly.entries.map fun e =>
      if series.closes now e.1 ∧ g.start e.1 = b then e.2 else 0).sum =
        series.hourly.sumBy (fun h c => if series.closes now h ∧ g.start h = b then c else 0) := rfl
  unfold shown openSum
  rw [rollHours_hourly, sumBy_deleteWhere, rollHours_eq_rollLoop, ht, hm, add_assoc,
    ← sumBy_add]
  congr 1
  apply sumBy_congr
  intro h c hc
  rw [← rollHours_eq_rollLoop, rollHours_isRolled reports now series hc]
  have he : h < unixBefore now reports.hourlyRetention → h < hourStart now := by
    intro old
    have := hourStart_bounds now
    unfold unixBefore at old
    unfold unixOf at this
    unfold durationDay durationHour at hh
    omega
  unfold closes
  by_cases old : h < unixBefore now reports.hourlyRetention
  · simp [he old, and_comm]
  · by_cases hour : h < hourStart now <;> simp [old, hour, and_comm]

theorem pruneTables_shown (g : ReportPeriod) (series : ReportSeries) (newer : unixBefore now (g.retention reports) ≤ b) :
    (series.pruneTables reports now).shown g b = series.shown g b := by
  unfold shown openSum
  rw [pruneTables_table, if_neg (by omega)]
  congr 1
  apply sumBy_congr
  intro h c hc
  rw [pruneTables_isRolled reports now series hc]

theorem rollup_shown (hh : durationDay ≤ reports.hourlyRetention) (g : ReportPeriod) (series : ReportSeries)
    (hn : unixBefore now (g.retention reports) ≤ b) : (series.rollupAndPrune reports now).shown g b = series.shown g b := by
  unfold rollupAndPrune
  rw [pruneTables_shown g _ hn, rollHours_shown hh]

theorem rollup_kept (hh : durationDay ≤ reports.hourlyRetention) (hk : Kept g log cut series) :
    Kept g log (max cut (unixBefore now (g.retention reports))) (series.rollupAndPrune reports now) := by
  intro b _
  rw [rollup_shown hh g series (by omega), hk b (by omega)]

theorem rollup_isRolled {h : Int} {c : Counters} (ht : (series.rollupAndPrune reports now).hourly.lookup h = some c) :
    series.hourly.lookup h = some c ∧
      (series.rollupAndPrune reports now).isRolled h = (series.isRolled h || decide (h < hourStart now)) := by
  have mid : (series.rollHours reports now).hourly.lookup h = some c := ht
  rw [rollupAndPrune_hourly, lookup_deleteWhere, Option.filter_eq_some_iff] at ht
  refine ⟨ht.1, ?_⟩
  unfold rollupAndPrune
  rw [pruneTables_isRolled reports now _ mid, rollHours_isRolled reports now series ht.1]

theorem rollup_rolled {h : Int} (hr : (series.rollupAndPrune reports now).isRolled h = true) :
    series.isRolled h = true ∨ (series.hourly.lookup h).isSome ∧ h < hourStart now := by
  have hb : (series.rollHours reports now).isRolled h = true := by
    unfold rollupAndPrune pruneTables isRolled at hr
    rw [lookup_deleteWhere] at hr
    unfold isRolled
    cases ht : (series.rollHours reports now).rolled.lookup h with
    | none => simp [ht] at hr
    | some =>
      simp only [ht, Option.filter_some] at hr
      split at hr
      · exact hr
      · cases hr
  rw [rollHours_eq_rollLoop, rollLoop_isRolled, Bool.or_eq_true, decide_eq_true_eq] at hb
  exact hb.imp_right (And.imp_left fun mem => AList.lookup_isSome.mpr (AList.mem_keys.mpr mem))

theorem rollup_pruned (old : b < unixBefore now (g.retention reports))
    (hcl : ∀ h c, series.hourly.lookup h = some c → g.start h = b → h < hourStart now) :
    (g.table (series.rollupAndPrune reports now)).lookup b = none ∧
      ∀ h c, (series.rollupAndPrune reports now).hourly.lookup h = some c → g.start h = b →
        (series.rollupAndPrune reports now).isRolled h = true := by
  refine ⟨by unfold rollupAndPrune; rw [pruneTables_table, if_pos old], ?_⟩
  intro h c hc eq
  obtain ⟨ht, hr⟩ := rollup_isRolled hc
  rw [hr]
  simp [hcl h c ht eq]

theorem rollup_gone (hg : Gone g cut series) (long : g.maxSeconds * 1000000000 ≤ g.retention reports) :
    Gone g (max cut (unixBefore now (g.retention reports))) (series.rollupAndPrune reports now) := by
  intro b _
  by_cases old : b < unixBefore now (g.retention reports)
  · apply rollup_pruned old
    intro h c _ _
    -- the whole period ends before the hour of the rollup
    have span := g.start_bounds h
    have ended : g.start h + g.maxSeconds ≤ hourStart now := by
      refine le_hourStart (g.end_dvd h) ?_
      unfold unixBefore at old
      unfold unixOf
      omega
    omega
  · obtain ⟨ha, hd⟩ := hg b (by omega)
    constructor
    · unfold rollupAndPrune
      rw [pruneTables_table, if_neg old]
      apply rollLoop_table_absent _ _ _ _ _ _ ha
      intro e he eq
      exact hd e.1 e.2 (mem_entries_iff.mp he) eq
    · intro h c hc eq
      obtain ⟨ht, hr⟩ := rollup_isRolled hc
      rw [hr, hd h c ht eq]
      rfl

theorem mergeLoop_lookup (period : Int → Int) (series : ReportSeries) (l : List (Σ _ : Int, Counters))
    (table : GoMap Int Counters) (b : Int) : let merged := l.foldl (fun (source : GoMap Int Counters) e =>
      if series.isRolled e.1 then source
      else source.insert (period e.1) (addCounters ((source.lookup (period e.1)).getD 0) e.2)) table
    (merged.lookup b).getD 0 = (table.lookup b).getD 0 +
        (l.map fun e => if period e.1 = b ∧ series.isRolled e.1 = false then e.2 else 0).sum ∧
      ((merged.lookup b).isSome ↔ (table.lookup b).isSome ∨
        ∃ e ∈ l, period e.1 = b ∧ series.isRolled e.1 = false) := by
  induction l generalizing table with
  | nil => simp
  | cons e _ ih =>
    simp only [foldl_cons, map_cons, sum_cons, mem_cons, or_and_right, exists_or,
      exists_eq_left]
    cases rolled : series.isRolled e.1 with
    | true =>
      obtain ⟨value, there⟩ := ih table
      simp only [if_true]
      exact ⟨by rw [value]; simp, by rw [there]; simp⟩
    | false =>
      obtain ⟨value, there⟩ := ih (table.insert (period e.1)
        (addCounters ((table.lookup (period e.1)).getD 0) e.2))
      simp only [Bool.false_eq_true, if_false]
      by_cases same : period e.1 = b
      · rw [same, AList.lookup_insert] at there value
        rw [same, value, there]
        exact ⟨by simp [addCounters_eq_add, add_assoc], by simp⟩
      · have other : (table.insert (period e.1)
            (addCounters ((table.lookup (period e.1)).getD 0) e.2)).lookup b = table.lookup b :=
          AList.lookup_insert_ne (Ne.symm same)
        rw [other] at value there
        exact ⟨by rw [value]; simp [same], by rw [there]; simp [same]⟩

theorem source_spec (g : ReportPeriod) (series : ReportSeries) (b : Int) :
    ((series.source g.granularity).lookup b).getD 0 = series.shown g b ∧
      (((series.source g.granularity).lookup b).isSome ↔ ((g.table series).lookup b).isSome ∨
        ∃ h c, series.hourly.lookup h = some c ∧ g.start h = b ∧ series.isRolled h = false) := by
  have eq : series.source g.granularity = series.mergeOpenHours g.start (g.table series) := by
    cases g <;> rfl
  obtain ⟨hv, ht⟩ := mergeLoop_lookup g.start series series.hourly.entries (g.table series) b
  rw [eq]
  refine ⟨hv, ht.trans (or_congr_right ?_)⟩
  constructor
  · rintro ⟨e, he, why⟩
    exact ⟨e.1, e.2, mem_entries_iff.mp he, why⟩
  · rintro ⟨h, c, hc, why⟩
    exact ⟨⟨h, c⟩, mem_entries_iff.mpr hc, why⟩

theorem source_exact (hk : Kept g log cut series) (hg : Gone g cut series) {c : Counters}
    (h : (series.source g.granularity).lookup b = some c) : c = periodSum g log b := by
  obtain ⟨hv, ht⟩ := source_spec g series b
  rw [h, Option.getD_some] at hv
  have hr : cut ≤ b := by
    by_contra older
    obtain ⟨ha, hd⟩ := hg b (by omega)
    rcases ht.mp (by rw [h]; rfl) with some | ⟨hour, c, hc, eq, hio⟩
    · simp [ha] at some
    · simp [hd hour c hc eq] at hio
  rw [hv, hk b hr]

theorem mem_buckets {granularity : Granularity} {from_ to_ : Int} {bucket : UsageBucket} :
    bucket ∈ series.buckets granularity from_ to_ ↔
      (series.source granularity).lookup bucket.start = some bucket.counters ∧
        from_ ≤ bucket.start ∧ bucket.start < to_ := by
  unfold buckets
  rw [mem_insertionSort, mem_map]
  constructor
  · rintro ⟨e, he, rfl⟩
    obtain ⟨mem, hr⟩ := mem_filter.mp he
    exact ⟨mem_entries_iff.mp mem, by simpa using hr⟩
  · rintro ⟨hf, hr⟩
    exact ⟨⟨bucket.start, bucket.counters⟩,
      mem_filter.mpr ⟨mem_entries_iff.mpr hf, by simpa using hr⟩, rfl⟩

end ReportSeries

end AsterCore
