import AsterCore.TrafficReportSeries

namespace AsterCore

open List

inductive ReportPeriod
  | day
  | month
  deriving DecidableEq

namespace ReportPeriod

def start : ReportPeriod → Int → Int
  | .day => dayStart
  | .month => monthStart

def table : ReportPeriod → ReportSeries → GoMap Int Counters
  | .day, series => series.daily
  | .month, series => series.monthly

def retention : ReportPeriod → ReportsConfig → Int
  | .day, reports => reports.dailyRetention
  | .month, reports => reports.monthlyRetention

def granularity : ReportPeriod → Granularity
  | .day => .day
  | .month => .month

def maxSeconds : ReportPeriod → Int
  | .day => 86400
  | .month => 31 * 86400

theorem start_bounds (g : ReportPeriod) (t : Int) : g.start t ≤ t ∧ t < g.start t + g.maxSeconds := by
  cases g
  · exact dayStart_bounds t
  · exact monthStart_bounds t

theorem start_hour (g : ReportPeriod) (now : Nat) : g.start (hourStart now) = g.start (unixOf now) := by
  cases g
  · exact dayStart_hour _
  · exact monthStart_hour _

theorem end_dvd (g : ReportPeriod) (t : Int) : 3600 ∣ g.start t + g.maxSeconds := by
  cases g
  · exact Int.dvd_add (dayStart_dvd t) (by decide)
  · exact Int.dvd_add (monthStart_dvd t) (by decide)

end ReportPeriod

namespace ReportSeries

def closes (series : ReportSeries) (now : Nat) (start : Int) : Bool :=
  decide (start < hourStart now) && !series.isRolled start

variable (reports : ReportsConfig) (now : Nat)

theorem rollHour_hourly (series : ReportSeries) (start : Int) (counters : Counters) :
    (series.rollHour reports now start counters).hourly =
      if decide (start < unixBefore now reports.hourlyRetention) then series.hourly.erase start
      else series.hourly := by
  unfold rollHour
  simp only [decide_eq_true_eq]
  split <;> split <;> rfl

theorem rollHour_isRolled (series : ReportSeries) (start : Int) (counters : Counters) (k : Int) :
    (series.rollHour reports now start counters).isRolled k =
      (series.isRolled k || (decide (k = start) && decide (start < hourStart now))) := by
  have hr : (series.rollHour reports now start counters).rolled =
      if series.closes now start then series.rolled.insert start true else series.rolled := by
    unfold rollHour closes
    simp only [Bool.and_eq_true, decide_eq_true_eq, Bool.not_eq_true']
    split <;> split <;> rfl
  unfold isRolled
  rw [hr]
  by_cases hs : k = start
  · subst hs
    unfold closes isRolled
    cases h : (series.rolled.lookup k).getD false <;> by_cases hh : k < hourStart now <;>
      simp [h, hh]
  · simp only [hs, decide_false, Bool.false_and, Bool.or_false]
    split
    · rw [GoMap.lookup_insert_eq, if_neg hs]
    · rfl

theorem rollHour_table (g : ReportPeriod) (series : ReportSeries) (start : Int) (counters : Counters) (b : Int) :
    (g.table (series.rollHour reports now start counters)).lookup b =
      if series.closes now start ∧ g.start start = b then
        some (((g.table series).lookup b).getD 0 + counters)
      else (g.table series).lookup b := by
  have ht : g.table (series.rollHour reports now start counters) =
      if series.closes now start then
        (g.table series).insert (g.start start) (((g.table series).lookup (g.start start)).getD 0 + counters)
      else g.table series := by
    unfold rollHour closes
    simp only [Bool.and_eq_true, decide_eq_true_eq, Bool.not_eq_true']
    cases g <;> split <;> split <;> rfl
  rw [ht]
  by_cases hit : series.closes now start
  · simp only [hit, if_true, true_and, GoMap.lookup_insert_eq]
    by_cases hs : g.start start = b
    · subst hs; simp
    · rw [if_neg hs, if_neg (Ne.symm hs)]
  · simp [hit]

def rollLoop (l : List (Σ _ : Int, Counters)) (series : ReportSeries) : ReportSeries :=
  l.foldl (fun series e => series.rollHour reports now e.1 e.2) series

theorem rollHours_eq_rollLoop (series : ReportSeries) :
    series.rollHours reports now = rollLoop reports now series.hourly.entries series := rfl

theorem rollLoop_hourly (l : List (Σ _ : Int, Counters)) (series : ReportSeries) :
    (rollLoop reports now l series).hourly =
      l.foldl (fun kept e =>
        if decide (e.1 < unixBefore now reports.hourlyRetention) then kept.erase e.1 else kept)
        series.hourly := by
  induction l generalizing series with
  | nil => rfl
  | cons e _ ih =>
    have hs := ih (series.rollHour reports now e.1 e.2)
    rw [rollHour_hourly] at hs
    exact hs

theorem rollLoop_isRolled (l : List (Σ _ : Int, Counters)) (series : ReportSeries) (k : Int) :
    (rollLoop reports now l series).isRolled k =
      (series.isRolled k || decide (k ∈ l.keys ∧ k < hourStart now)) := by
  induction l generalizing series with
  | nil => simp [rollLoop]
  | cons e _ ih =>
    have hs := ih (series.rollHour reports now e.1 e.2)
    rw [rollHour_isRolled] at hs
    refine Eq.trans hs ?_
    by_cases same : k = e.1
    · subst same
      cases series.isRolled e.1 <;> by_cases hour : e.1 < hourStart now <;> simp
    · simp [same]

/-- Every closed hour reaches the table once: the keys of the entries are distinct, so a round
never changes whether a later entry closes. -/
theorem rollLoop_table (g : ReportPeriod) (l : List (Σ _ : Int, Counters)) (hn : l.keys.Nodup)
    (series : ReportSeries) (b : Int) :
    ((g.table (rollLoop reports now l series)).lookup b).getD 0 =
      ((g.table series).lookup b).getD 0 +
        (l.map fun e => if series.closes now e.1 ∧ g.start e.1 = b then e.2 else 0).sum := by
  induction l generalizing series with
  | nil => simp [rollLoop]
  | cons e l ih =>
    obtain ⟨hf, hr⟩ := nodup_cons.mp (by simpa using hn)
    have hs := ih hr (series.rollHour reports now e.1 e.2)
    refine Eq.trans hs ?_
    have hl : ∀ x ∈ l, (series.rollHour reports now e.1 e.2).closes now x.1 = series.closes now x.1 := by
      intro x hx
      have ne : x.1 ≠ e.1 := fun eq => hf (by rw [← eq]; exact mem_map_of_mem hx)
      unfold closes
      rw [rollHour_isRolled]
      simp [ne]
    have ht : (l.map fun x => if (series.rollHour reports now e.1 e.2).closes now x.1 ∧ g.start x.1 = b
        then x.2 else 0) = l.map fun x => if series.closes now x.1 ∧ g.start x.1 = b then x.2 else 0 := by
      apply map_congr_left
      intro x hx
      rw [hl x hx]
    rw [ht, rollHour_table, map_cons, sum_cons]
    split
    · rw [Option.getD_some, add_assoc]
    · rw [zero_add]

theorem rollLoop_table_absent (g : ReportPeriod) (l : List (Σ _ : Int, Counters)) (series : ReportSeries)
    (b : Int) (ha : (g.table series).lookup b = none) (hd : ∀ e ∈ l, g.start e.1 = b → series.isRolled e.1) :
    (g.table (rollLoop reports now l series)).lookup b = none := by
  induction l generalizing series with
  | nil => exact ha
  | cons e _ ih =>
    apply ih
    · rw [rollHour_table, if_neg]
      · exact ha
      · rintro ⟨hit, eq⟩
        have := hd e (by simp) eq
        simp [closes, this] at hit
    · intro x hx eq
      rw [rollHour_isRolled, hd x (mem_cons_of_mem _ hx) eq]
      rfl

theorem rollLoop_table_some (g : ReportPeriod) (l : List (Σ _ : Int, Counters)) (hn : l.keys.Nodup)
    (series : ReportSeries) (b : Int) (ht : ((g.table series).lookup b).isSome ∨
      ∃ e ∈ l, series.closes now e.1 ∧ g.start e.1 = b) : ((g.table (rollLoop reports now l series)).lookup b).isSome := by
  induction l generalizing series with
  | nil =>
    rcases ht with hs | ⟨e, he, _⟩
    · exact hs
    · cases he
  | cons e _ ih =>
    obtain ⟨hf, hr⟩ := nodup_cons.mp (by simpa using hn)
    apply ih hr
    rw [rollHour_table]
    split
    · exact .inl rfl
    next ho =>
      rcases ht with hs | ⟨x, hx, ends, eq⟩
      · exact .inl hs
      · rcases mem_cons.mp hx with rfl | hl
        · exact absurd ⟨ends, eq⟩ ho
        · have ne : x.1 ≠ e.1 := fun same => hf (by rw [← same]; exact mem_map_of_mem hl)
          refine .inr ⟨x, hl, ?_, eq⟩
          unfold closes at ends ⊢
          rw [rollHour_isRolled]
          simpa [ne] using ends

theorem pruneTables_table (g : ReportPeriod) (series : ReportSeries) (b : Int) :
    (g.table (series.pruneTables reports now)).lookup b =
      if b < unixBefore now (g.retention reports) then none else (g.table series).lookup b := by
  have hl : ∀ (table : GoMap Int Counters) (cutoff : Int),
      (table.deleteWhere (fun start _ => decide (start < cutoff))).lookup b =
        if b < cutoff then none else table.lookup b := by
    intro table cutoff
    rw [GoMap.lookup_deleteWhere]
    by_cases old : b < cutoff <;> cases table.lookup b <;> simp [old]
  cases g
  · exact hl _ _
  · exact hl _ _

section

variable (series : ReportSeries)

include series

theorem pruneTables_isRolled {h : Int} {c : Counters} (ht : series.hourly.lookup h = some c) :
    (series.pruneTables reports now).isRolled h = series.isRolled h := by
  unfold isRolled pruneTables
  rw [GoMap.lookup_deleteWhere]
  cases series.rolled.lookup h <;> simp [ht, Option.filter]

theorem rollHours_hourly :
    (series.rollHours reports now).hourly =
      series.hourly.deleteWhere (fun start _ => decide (start < unixBefore now reports.hourlyRetention)) :=
  rollLoop_hourly reports now series.hourly.entries series

theorem rollHours_isRolled {h : Int} {c : Counters} (ht : series.hourly.lookup h = some c) :
    (series.rollHours reports now).isRolled h = (series.isRolled h || decide (h < hourStart now)) := by
  have mem : h ∈ series.hourly.entries.keys :=
    AList.mem_keys.mp (AList.lookup_isSome.mp (by rw [ht]; rfl))
  rw [rollHours_eq_rollLoop, rollLoop_isRolled]
  simp [mem]

theorem rollupAndPrune_hourly :
    (series.rollupAndPrune reports now).hourly =
      series.hourly.deleteWhere (fun start _ => decide (start < unixBefore now reports.hourlyRetention)) :=
  rollHours_hourly reports now series

end

end ReportSeries

end AsterCore
