import AsterCore.TrafficReportTable
import AsterCore.TrafficPolicyState

namespace AsterCore

/-- The stored form of a policy state: the caches and the number of connections are left out. -/
structure PersistedPolicy where
  id : String
  identity : String
  generation : UInt64
  counters : Counters
  buckets : GoMap Int Counters
  overQuota : Bool
  lastUpdated : Int
  lastReset : Int
  lastSeen : Int
  deriving DecidableEq

structure PersistedReport where
  key : String
  updated : Int
  hourly : GoMap Int Counters
  daily : GoMap Int Counters
  monthly : GoMap Int Counters
  rolled : GoMap Int Bool
  deriving DecidableEq

structure StoreFile where
  policies : GoMap String PersistedPolicy := ∅
  reports : GoMap String PersistedReport := ∅
  checkpoint : Int := 0
  deriving DecidableEq

def PolicyState.persist (state : PolicyState) : PersistedPolicy :=
  { id := state.id, identity := state.identity, generation := state.generation, counters := state.counters,
    buckets := state.buckets, overQuota := state.overQuota, lastUpdated := state.lastUpdated,
    lastReset := state.lastReset, lastSeen := state.lastSeen }

def PersistedPolicy.load (persisted : PersistedPolicy) : PolicyState :=
  { id := persisted.id, identity := persisted.identity, generation := persisted.generation,
    counters := persisted.counters, buckets := persisted.buckets, overQuota := persisted.overQuota,
    lastUpdated := persisted.lastUpdated, lastReset := persisted.lastReset, lastSeen := persisted.lastSeen }

def ReportSeries.persist (series : ReportSeries) : PersistedReport :=
  { key := series.key, updated := series.updated, hourly := series.hourly, daily := series.daily,
    monthly := series.monthly, rolled := series.rolled }

def PersistedReport.load (persisted : PersistedReport) : ReportSeries :=
  { key := persisted.key, updated := persisted.updated, hourly := persisted.hourly, daily := persisted.daily,
    monthly := persisted.monthly, rolled := persisted.rolled }

theorem PolicyState.load_persist (state : PolicyState) :
    state.persist.load = { state with rolling := 0, bucketStart := 0, nextCutoff := 0, active := 0 } := rfl

/-- The buckets `Store.Save` fills, for the policies and reports it is given. -/
def saveFile (states : GoMap String Nat) (heap : Nat → PolicyState) (table : ReportTable)
    (checkpoint : Int) : StoreFile :=
  { policies := states.collect (fun _ ref => (heap ref).persist)
    reports := table.reports.collect (fun _ ref => (table.series ref).persist)
    checkpoint := checkpoint }

theorem saveFile_policies (states : GoMap String Nat) (heap : Nat → PolicyState) (table : ReportTable)
    (checkpoint : Int) (id : String) :
    (saveFile states heap table checkpoint).policies.lookup id =
      (states.lookup id).map (fun ref => (heap ref).persist) :=
  GoMap.lookup_collect _ _ _

theorem saveFile_reports (states : GoMap String Nat) (heap : Nat → PolicyState) (table : ReportTable)
    (checkpoint : Int) (key : String) :
    (saveFile states heap table checkpoint).reports.lookup key =
      (table.reports.lookup key).map (fun ref => (table.series ref).persist) :=
  GoMap.lookup_collect _ _ _

end AsterCore
