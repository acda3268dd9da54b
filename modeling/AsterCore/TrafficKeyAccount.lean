import AsterCore.TrafficReportTable

namespace AsterCore

open GoMap Granularity ReportSeries

namespace Granularity

/-- The start of the bucket that a clock reading falls in. -/
def bucket : Granularity → Nat → Int
  | .hour, now => hourStart now
  | .day, now => dayStart (unixOf now)
  | .month, now => monthStart (unixOf now)

def retention : Granularity → ReportsConfig → Int
  | .hour, reports => reports.hourlyRetention
  | .day, reports => reports.dailyRetention
  | .month, reports => reports.monthlyRetention

/-- The sum of the increments that fall in a bucket. -/
def total (g : Granularity) (log : ReportLog) (b : Int) : Counters :=
  (log.map fun e => if g.bucket e.1 = b then e.2.value else 0).sum

theorem hour_or_period (g : Granularity) : g = .hour ∨ ∃ p : ReportPeriod, g = p.granularity := by
  cases g with
  | hour => exact .inl rfl
  | day => exact .inr ⟨.day, rfl⟩
  | month => exact .inr ⟨.month, rfl⟩

theorem bucket_period (p : ReportPeriod) (now : Nat) : p.granularity.bucket now = p.start (unixOf now) := by
  cases p <;> rfl

theorem retention_period (p : ReportPeriod) (reports : ReportsConfig) :
    p.granularity.retention reports = p.retention reports := by
  cases p <;> rfl

theorem total_concat (g : Granularity) (log : ReportLog) (now : Nat) (increment : ReportIncrement) (b : Int) :
    g.total (log ++ [(now, increment)]) b = g.total log b + if g.bucket now = b then increment.value else 0 := by
  simp [total]

end Granularity

namespace ReportSeries

/-- What `Reports` shows for a bucket. -/
def value (series : ReportSeries) (g : Granularity) (b : Int) : Counters := ((series.source g).lookup b).getD 0

/-- The buckets that `Reports` has an answer for. -/
def Present (series : ReportSeries) (g : Granularity) (b : Int) : Prop := ((series.source g).lookup b).isSome

/-- Every bucket of the series is older than the retention allows. -/
def Expired (reports : ReportsConfig) (now : Nat) (series : ReportSeries) : Prop :=
  ∀ g ∈ [Granularity.hour, .day, .month], ∀ e ∈ (series.source g).entries, e.1 < unixBefore now (g.retention reports)

instance (reports : ReportsConfig) (now : Nat) (series : ReportSeries) : Decidable (series.Expired reports now) :=
  inferInstanceAs (Decidable (∀ g ∈ _, ∀ e ∈ _, _))

variable {reports : ReportsConfig} {now : Nat} {series : ReportSeries} {g : Granularity} {b : Int}

theorem value_period (p : ReportPeriod) : series.value p.granularity b = series.shown p b :=
  (source_spec p series b).1

theorem present_period {p : ReportPeriod} : series.Present p.granularity b ↔ ((p.table series).lookup b).isSome ∨
    ∃ h c, series.hourly.lookup h = some c ∧ p.start h = b ∧ series.isRolled h = false :=
  (source_spec p series b).2

theorem bump_hour (increment : ReportIncrement) (series : ReportSeries) (now : Nat) (b : Int) :
    (series.bump now increment).value .hour b =
      series.value .hour b + if Granularity.hour.bucket now = b then increment.value else 0 := by
  change ((series.bump now increment).hourly.lookup b).getD 0 = (series.hourly.lookup b).getD 0 + _
  rw [bump_hourly]
  by_cases hs : b = hourStart now
  · rw [if_pos hs, Option.getD_some, bucket, if_pos hs.symm]
  · rw [if_neg hs, bucket, if_neg (Ne.symm hs), add_zero]

theorem bump_value (increment : ReportIncrement) (hio : series.isRolled (hourStart now) = false) :
    (series.bump now increment).value g b = series.value g b + if g.bucket now = b then increment.value else 0 := by
  rcases g.hour_or_period with rfl | ⟨p, rfl⟩
  · exact bump_hour increment series now b
  · rw [value_period, value_period, bucket_period]
    unfold shown
    rw [bump_table, bump_openSum p series now increment hio, add_assoc]

theorem bump_present (increment : ReportIncrement)
    (ht : series.Present g b ∨ g.bucket now = b ∧ series.isRolled (hourStart now) = false) :
    (series.bump now increment).Present g b := by
  rcases g.hour_or_period with rfl | ⟨p, rfl⟩
  · change ((series.bump now increment).hourly.lookup b).isSome
    rw [bump_hourly]
    split
    · rfl
    next ne =>
      rcases ht with old | ⟨rfl, _⟩
      · exact old
      · exact absurd rfl ne
  · rw [present_period] at ht ⊢
    rw [bump_table]
    rcases ht with (some | ⟨h, c, ht, eq, hio⟩) | ⟨hs, hio⟩
    · exact .inl some
    · refine .inr ⟨h, ((series.bump now increment).hourly.lookup h).getD 0, ?_, eq, hio⟩
      rw [bump_hourly]
      split
      · rfl
      · rw [ht, Option.getD_some]
    · rw [bucket_period] at hs
      exact .inr ⟨hourStart now, _, by rw [bump_hourly, if_pos rfl], (p.start_hour now).trans hs, hio⟩

theorem rollup_hourly (hn : unixBefore now reports.hourlyRetention ≤ b) :
    (series.rollupAndPrune reports now).hourly.lookup b = series.hourly.lookup b := by
  rw [rollupAndPrune_hourly, lookup_deleteWhere]
  cases series.hourly.lookup b <;> simp [Int.not_lt.mpr hn]

theorem rollup_value (hh : durationDay ≤ reports.hourlyRetention) (hn : unixBefore now (g.retention reports) ≤ b) :
    (series.rollupAndPrune reports now).value g b = series.value g b := by
  rcases g.hour_or_period with rfl | ⟨p, rfl⟩
  · exact congrArg (Option.getD · 0) (rollup_hourly hn)
  · rw [retention_period] at hn
    rw [value_period, value_period, rollup_shown hh p series hn]

/-- A rollup keeps the buckets of the retention: an open hour stays open or goes into the tables. -/
theorem rollup_present (hh : durationDay ≤ reports.hourlyRetention)
    (hn : unixBefore now (g.retention reports) ≤ b) (hp : series.Present g b) :
    (series.rollupAndPrune reports now).Present g b := by
  rcases g.hour_or_period with rfl | ⟨p, rfl⟩
  · change ((series.rollupAndPrune reports now).hourly.lookup b).isSome
    rw [rollup_hourly hn]
    exact hp
  · rw [retention_period] at hn
    rw [present_period] at hp ⊢
    have hta : ((p.table series).lookup b).isSome ∨ (∃ e ∈ series.hourly.entries, series.closes now e.1 ∧
        p.start e.1 = b) → ((p.table (series.rollupAndPrune reports now)).lookup b).isSome := by
      intro ht
      unfold rollupAndPrune
      rw [pruneTables_table, if_neg (by omega)]
      exact rollLoop_table_some reports now p _ series.hourly.keys_nodup series b ht
    rcases hp with hs | ⟨h, c, ht, eq, hio⟩
    · exact .inl (hta (.inl hs))
    · by_cases he : h < hourStart now
      · refine .inl (hta (.inr ⟨⟨h, c⟩, mem_entries_iff.mpr ht, ?_, eq⟩))
        simp [closes, he, hio]
      · have hr : unixBefore now reports.hourlyRetention ≤ h := by
          have hb := hourStart_bounds now
          unfold unixBefore
          unfold unixOf at hb
          unfold durationDay durationHour at hh
          omega
        have hk := (rollup_hourly hr).trans ht
        refine .inr ⟨h, c, hk, eq, ?_⟩
        rw [(rollup_isRolled hk).2, hio]
        simp [he]

theorem not_present_of_isEmpty (he : series.isEmpty = true) : ¬ series.Present g b := by
  unfold isEmpty at he
  simp only [Bool.and_eq_true, List.isEmpty_iff] at he
  have ha : ∀ {m : GoMap Int Counters} {b}, m.entries = [] → ¬ (m.lookup b).isSome := by
    intro m b hn hs
    obtain ⟨c, ht⟩ := Option.isSome_iff_exists.mp hs
    have mem := mem_entries_iff.mpr ht
    rw [hn] at mem
    cases mem
  rcases g.hour_or_period with rfl | ⟨p, rfl⟩
  · exact ha he.1.1
  · rw [present_period]
    rintro (hs | ⟨h, c, ht, _⟩)
    · revert hs
      cases p
      · exact ha he.1.2
      · exact ha he.2
    · exact ha he.1.1 (by rw [ht]; rfl)

theorem value_of_isEmpty (he : series.isEmpty = true) : series.value g b = 0 := by
  unfold value
  cases ht : (series.source g).lookup b with
  | none => rfl
  | some => exact absurd (by unfold Present; rw [ht]; rfl) (not_present_of_isEmpty (g := g) (b := b) he)

/-- Only a series that has nothing left to keep is emptied by a rollup. -/
theorem expired_of_rollup (hh : durationDay ≤ reports.hourlyRetention)
    (hem : (series.rollupAndPrune reports now).isEmpty = true) : series.Expired reports now := by
  intro g _ e he
  by_contra hn
  have hp : series.Present g e.1 := by
    unfold Present
    rw [mem_entries_iff.mp he]
    rfl
  exact not_present_of_isEmpty hem (rollup_present hh (Int.not_lt.mp hn) hp)

end ReportSeries

/-- A series against the series there was at the start and what has been added since: what the retention keeps at `clock` is all
there. -/
structure KeyAccount (reports : ReportsConfig) (clock : Nat) (base series : ReportSeries) (log : ReportLog) : Prop where
  rolled : ∀ h, series.isRolled h = true → h < hourStart clock
  value : ∀ (g : Granularity) b, unixBefore clock (g.retention reports) ≤ b →
    series.value g b = base.value g b + g.total log b
  present : ∀ e ∈ log, ∀ g : Granularity, unixBefore clock (g.retention reports) ≤ g.bucket e.1 →
    series.Present g (g.bucket e.1)

namespace KeyAccount

variable {reports : ReportsConfig} {clock now : Nat} {base series : ReportSeries} {log : ReportLog}

theorem start (hr : ∀ h, series.isRolled h = true → h < hourStart clock) : KeyAccount reports clock series series [] := by
  refine ⟨hr, fun g b _ => (add_zero _).symm, ?_⟩
  intro e he
  cases he

theorem later (ha : KeyAccount reports clock base series log) {clock' : Nat} (le : clock ≤ clock') :
    KeyAccount reports clock' base series log := by
  refine ⟨fun h hr => lt_of_lt_of_le (ha.rolled h hr) (hourStart_mono le), fun g b hn => ?_,
    fun e he g hn => ?_⟩
  · exact ha.value g b (le_trans (unixBefore_mono le _) hn)
  · exact ha.present e he g (le_trans (unixBefore_mono le _) hn)

theorem bump (ha : KeyAccount reports clock base series log) (increment : ReportIncrement)
    (hio : series.isRolled (hourStart now) = false) :
    KeyAccount reports clock base (series.bump now increment) (log ++ [(now, increment)]) := by
  refine ⟨ha.rolled, fun g b hn => ?_, fun e he g hn => ?_⟩
  · rw [bump_value increment hio, total_concat, ha.value g b hn, add_assoc]
  · apply bump_present
    rcases List.mem_append.mp he with old | new
    · exact .inl (ha.present e old g hn)
    · rw [List.mem_singleton.mp new]
      exact .inr ⟨rfl, hio⟩

theorem rollup (ha : KeyAccount reports clock base series log) (hp : now ≤ clock)
    (hh : durationDay ≤ reports.hourlyRetention) : KeyAccount reports clock base (series.rollupAndPrune reports now) log := by
  refine ⟨fun h hr => ?_, fun g b hn => ?_, fun e he g hn => ?_⟩
  · rcases rollup_rolled hr with was | ⟨_, hea⟩
    · exact ha.rolled h was
    · exact lt_of_lt_of_le hea (hourStart_mono hp)
  · rw [rollup_value hh (le_trans (unixBefore_mono hp _) hn)]
    exact ha.value g b hn
  · exact rollup_present hh (le_trans (unixBefore_mono hp _) hn) (ha.present e he g hn)

/-- A series that a rollup has emptied may go: nothing that the retention keeps was in it. -/
theorem removed (ha : KeyAccount reports clock base series log) (hem : series.isEmpty = true) (key : String) :
    KeyAccount reports clock base { key := key } log := by
  refine ⟨fun h hr => by simp [isRolled] at hr, fun g b hn => ?_, fun e he g hn => ?_⟩
  · rw [← ha.value g b hn, value_of_isEmpty hem, value_of_isEmpty rfl]
  · exact absurd (ha.present e he g hn) (not_present_of_isEmpty hem)

end KeyAccount

namespace ReportTable

theorem rollupEntry_wellFormed {t : ReportTable} (wf : t.WellFormed) (reports : ReportsConfig) (now : Nat) (key : String)
    (ref : Nat) : (t.rollupEntry reports now key ref).WellFormed := by
  refine wf.sub (fun other r ht => ?_) le_rfl
  unfold rollupEntry at ht
  simp only at ht
  split at ht
  · rw [lookup_erase_eq] at ht
    split at ht
    · cases ht
    · exact ht
  · exact ht

theorem rollupEntry_seriesAt {t : ReportTable} (wf : t.WellFormed) {key : String} {ref : Nat}
    (ht : t.reports.lookup key = some ref) (reports : ReportsConfig) (now : Nat) (other : String) :
    (t.rollupEntry reports now key ref).seriesAt other =
      if other = key then
        if ((t.seriesAt key).rollupAndPrune reports now).isEmpty then { key := key }
        else (t.seriesAt key).rollupAndPrune reports now
      else t.seriesAt other := by
  have hh : t.seriesAt key = t.series ref := by
    unfold seriesAt
    rw [ht]
  rw [hh]
  have hk : ∀ r, r ≠ ref → (t.rollupEntry reports now key ref).series r = t.series r :=
    fun r ne => Function.update_of_ne ne _ _
  have own : (t.rollupEntry reports now key ref).series ref = (t.series ref).rollupAndPrune reports now :=
    Function.update_self _ _ _
  have hl : (t.rollupEntry reports now key ref).reports.lookup other =
      if ((t.series ref).rollupAndPrune reports now).isEmpty ∧ other = key then none else t.reports.lookup other := by
    unfold rollupEntry
    simp only
    cases ((t.series ref).rollupAndPrune reports now).isEmpty with
    | true => simp [lookup_erase_eq]
    | false => simp
  unfold seriesAt
  rw [hl]
  by_cases hs : other = key
  · subst hs
    cases ((t.series ref).rollupAndPrune reports now).isEmpty with
    | true => simp
    | false => simp [ht, own]
  · simp only [hs, and_false]
    cases hf : t.reports.lookup other with
    | none => rfl
    | some r => exact hk r (fun eq => hs (wf.distinct other key ref (eq ▸ hf) ht))

end ReportTable

end AsterCore
