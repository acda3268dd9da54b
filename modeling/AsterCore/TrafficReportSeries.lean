import AsterCore.GoMap
import AsterCore.TrafficCounters
import AsterCore.TrafficConfig
import Mathlib.Data.List.Sort

namespace AsterCore

/-- The report counters of one key. `rolled` marks the hours already added to `daily` and `monthly`. -/
structure ReportSeries where
  key : String
  updated : Int := 0
  hourly : GoMap Int Counters := ∅
  daily : GoMap Int Counters := ∅
  monthly : GoMap Int Counters := ∅
  rolled : GoMap Int Bool := ∅
  deriving DecidableEq

/-- What one report call adds to an hour: `recordReports`, `recordReportConnections` and
`recordReportExceeded` differ in this only. -/
inductive ReportIncrement
  | transfer (direction : Direction) (bytes : Int64)
  | connections (count : Int64)
  | exceeded
  deriving DecidableEq

def ReportIncrement.apply (counters : Counters) : ReportIncrement → Counters
  | .transfer direction bytes => counters.add direction bytes
  | .connections count => { counters with connections := counters.connections + count }
  | .exceeded => { counters with exceededEvents := counters.exceededEvents + 1 }

def ReportIncrement.value (increment : ReportIncrement) : Counters := increment.apply 0

theorem ReportIncrement.apply_eq_add (counters : Counters) (increment : ReportIncrement) :
    increment.apply counters = counters + increment.value := by
  cases increment with
  | transfer => exact Counters.add_eq_add_ofBytes _ _ _
  | connections count | exceeded => ext <;> simp [apply, value]

namespace ReportSeries

def isRolled (series : ReportSeries) (start : Int) : Bool := (series.rolled.lookup start).getD false

def bump (series : ReportSeries) (now : Nat) (increment : ReportIncrement) : ReportSeries :=
  { series with
    hourly := series.hourly.insert (hourStart now)
      (increment.apply ((series.hourly.lookup (hourStart now)).getD 0))
    updated := unixOf now }

/-- One round of the loop over `series.Hourly` in `rollupAndPruneLocked`. -/
def rollHour (reports : ReportsConfig) (now : Nat) (series : ReportSeries) (start : Int)
    (counters : Counters) : ReportSeries :=
  let series :=
    if start < hourStart now ∧ series.isRolled start = false then
      { series with
        daily := series.daily.insert (dayStart start)
          (Counters.addCounters ((series.daily.lookup (dayStart start)).getD 0) counters)
        monthly := series.monthly.insert (monthStart start)
          (Counters.addCounters ((series.monthly.lookup (monthStart start)).getD 0) counters)
        rolled := series.rolled.insert start true }
    else series
  if start < unixBefore now reports.hourlyRetention then
    { series with hourly := series.hourly.erase start }
  else series

def rollHours (reports : ReportsConfig) (now : Nat) (series : ReportSeries) : ReportSeries :=
  series.hourly.foldl (rollHour reports now) series

def pruneTables (reports : ReportsConfig) (now : Nat) (series : ReportSeries) : ReportSeries :=
  { series with
    rolled := series.rolled.deleteWhere (fun start _ => (series.hourly.lookup start).isNone)
    daily := series.daily.deleteWhere (fun start _ => decide (start < unixBefore now reports.dailyRetention))
    monthly := series.monthly.deleteWhere
      (fun start _ => decide (start < unixBefore now reports.monthlyRetention)) }

/-- What `rollupAndPruneLocked` does to one series. -/
def rollupAndPrune (reports : ReportsConfig) (now : Nat) (series : ReportSeries) : ReportSeries :=
  (series.rollHours reports now).pruneTables reports now

/-- The test on which `rollupAndPruneLocked` removes the series. -/
def isEmpty (series : ReportSeries) : Bool :=
  series.hourly.entries.isEmpty && series.daily.entries.isEmpty && series.monthly.entries.isEmpty

end ReportSeries

inductive Granularity
  | hour
  | day
  | month
  deriving DecidableEq

structure UsageBucket where
  start : Int
  counters : Counters
  deriving DecidableEq

namespace ReportSeries

/-- The hours not yet rolled up, added to a copy of the table they will be rolled into. -/
def mergeOpenHours (period : Int → Int) (series : ReportSeries) (table : GoMap Int Counters) :
    GoMap Int Counters :=
  series.hourly.foldl (fun source start counters =>
    if series.isRolled start then source
    else source.insert (period start)
      (Counters.addCounters ((source.lookup (period start)).getD 0) counters)) table

def source (series : ReportSeries) : Granularity → GoMap Int Counters
  | .hour => series.hourly
  | .day => series.mergeOpenHours dayStart series.daily
  | .month => series.mergeOpenHours monthStart series.monthly

def buckets (series : ReportSeries) (granularity : Granularity) (from_ to_ : Int) : List UsageBucket :=
  (((series.source granularity).entries.filter (fun e => decide (from_ ≤ e.1) && decide (e.1 < to_))).map
    (fun e => ⟨e.1, e.2⟩)).insertionSort (fun a b => a.start ≤ b.start)

end ReportSeries

end AsterCore
