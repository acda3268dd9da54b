import AsterCore.GoStrings
import AsterCore.GoTime
import Mathlib.Data.List.Basic

namespace AsterCore

structure RawPortalConfig where
  listen : String := ""
  url : String := ""
  deriving DecidableEq

structure RawReportsConfig where
  enabled : Option Bool := none
  hourlyRetention : String := ""
  dailyRetention : String := ""
  monthlyRetention : String := ""
  orphanRetention : String := ""
  deriving DecidableEq

structure RawQuotaConfig where
  totalBytes : Int64 := 0
  uploadBytes : Int64 := 0
  downloadBytes : Int64 := 0
  window : String := ""
  overageUploadBPS : Int64 := 0
  overageDownloadBPS : Int64 := 0
  portal : Option Bool := none
  deriving DecidableEq

structure RawPolicy where
  id : String := ""
  name : String := ""
  enabled : Option Bool := none
  uploadBPS : Int64 := 0
  downloadBPS : Int64 := 0
  quota : RawQuotaConfig := {}
  deriving DecidableEq

structure RawDevicePolicy extends RawPolicy where
  mac : String := ""
  sourceCIDRs : List String := []
  deriving DecidableEq

structure RawRulePolicy extends RawPolicy where
  type : String := ""
  payload : String := ""
  target : String := ""
  deriving DecidableEq

structure RawTargetPolicy extends RawPolicy where
  kind : String := ""
  target : String := ""
  deriving DecidableEq

structure RawConfig where
  enabled : Bool := false
  store : String := ""
  checkpointInterval : String := ""
  maxStoreSize : Int64 := 0
  portal : RawPortalConfig := {}
  reports : RawReportsConfig := {}
  global : Option RawPolicy := none
  devices : List RawDevicePolicy := []
  rules : List RawRulePolicy := []
  targets : List RawTargetPolicy := []

structure ReportsConfig where
  enabled : Bool
  hourlyRetention : Int
  dailyRetention : Int
  monthlyRetention : Int
  orphanRetention : Int
  deriving DecidableEq

inductive PolicyKind
  | global
  | device
  | rule
  | target
  deriving DecidableEq

def PolicyKind.string : PolicyKind → String
  | .global => "global"
  | .device => "device"
  | .rule => "rule"
  | .target => "target"

structure QuotaConfig where
  totalBytes : Int64 := 0
  uploadBytes : Int64 := 0
  downloadBytes : Int64 := 0
  window : Int := 0
  overageUploadBPS : Int64 := 0
  overageDownloadBPS : Int64 := 0
  portal : Bool := true
  deriving DecidableEq

structure RuleSelector where
  type : String := ""
  payload : String := ""
  target : String := ""
  fingerprint : String := ""
  deriving DecidableEq

structure TargetSelector where
  kind : String := ""
  name : String := ""
  deriving DecidableEq

structure Policy where
  id : String
  name : String := ""
  kind : PolicyKind
  enabled : Bool := true
  uploadBPS : Int64 := 0
  downloadBPS : Int64 := 0
  quota : QuotaConfig := {}
  mac : String := ""
  sourceCIDRs : List Prefix := []
  rule : RuleSelector := {}
  target : TargetSelector := {}
  deriving DecidableEq

/-- A parsed configuration. `addPolicy` never lets two policies share an identifier, and the
field `idsNodup` carries that along. -/
structure Config where
  enabled : Bool := true
  storePath : String
  requestedStore : String := ""
  checkpointInterval : Int
  maxStoreSize : Int64
  portal : RawPortalConfig := {}
  reports : ReportsConfig
  policies : List Policy
  idsNodup : (policies.map Policy.id).Nodup

def defaultCheckpointInterval : Int := 5 * durationMinute
def defaultStoreLimit : Int64 := 67108864
def defaultOrphanRetention : Int := 90 * durationDay
def defaultHourlyRetention : Int := 31 * durationDay
def defaultDailyRetention : Int := 397 * durationDay
def defaultMonthlyRetention : Int := 397 * durationDay
def defaultOverageUploadBPS : Int64 := 64000
def defaultOverageDownloadBPS : Int64 := 256000
def minQuotaWindow : Int := durationHour
def maxQuotaWindow : Int := 365 * durationDay
def maxDuration : Int := 9223372036854775807

def durationUnit (unit : List Char) : Option Int :=
  if unit = ['m'] then some durationMinute
  else if unit = ['h'] then some durationHour
  else if unit = ['d'] then some durationDay
  else if unit = ['w'] then some (7 * durationDay)
  else none

/-- The loop of `parseFlexibleDuration`. Every round takes at least one digit and one unit
letter, so the length of the text is fuel enough. -/
def parseTerms : Nat → List Char → Int → Except String Int
  | _, [], total => .ok total
  | 0, _ :: _, _ => .error "invalid duration"
  | fuel + 1, value, total =>
    let digits := value.takeWhile Char.isDigit
    let afterDigits := value.dropWhile Char.isDigit
    if digits = [] ∨ afterDigits = [] then .error "invalid duration"
    else
      let n : Int := decimalValue digits
      if maxDuration < n ∨ n ≤ 0 then .error "invalid duration"
      else
        match durationUnit (afterDigits.takeWhile (fun c => !c.isDigit)) with
        | none => .error "invalid duration unit"
        | some multiplier =>
          if maxDuration / multiplier < n then .error "duration overflows"
          else if maxDuration - n * multiplier < total then .error "duration overflows"
          else parseTerms fuel (afterDigits.dropWhile (fun c => !c.isDigit)) (total + n * multiplier)

def parseFlexibleDuration (lib : Stdlib) (value : String) : Except String Int :=
  let value := trimSpaceList (lib.toLower value).toList
  if value = [] then .error "duration is empty" else parseTerms value.length value 0

def parseOptionalDuration (lib : Stdlib) (value : String) (fallback : Int) : Except String Int :=
  if trimSpace value = "" then .ok fallback else parseFlexibleDuration lib value

def parseQuota (lib : Stdlib) (raw : RawQuotaConfig) : Except String QuotaConfig :=
  let quota : QuotaConfig :=
    { totalBytes := raw.totalBytes, uploadBytes := raw.uploadBytes, downloadBytes := raw.downloadBytes,
      overageUploadBPS := raw.overageUploadBPS, overageDownloadBPS := raw.overageDownloadBPS,
      portal := raw.portal.getD true }
  if quota.totalBytes < 0 ∨ quota.uploadBytes < 0 ∨ quota.downloadBytes < 0 ∨
      quota.overageUploadBPS < 0 ∨ quota.overageDownloadBPS < 0 then
    .error "quota values cannot be negative"
  else if 0 < quota.totalBytes ∨ 0 < quota.uploadBytes ∨ 0 < quota.downloadBytes then
    match parseFlexibleDuration lib raw.window with
    | .error _ => .error "quota window must be between 1h and 365d"
    | .ok window =>
      if window < minQuotaWindow ∨ maxQuotaWindow < window then
        .error "quota window must be between 1h and 365d"
      else .ok { quota with
        window := window
        overageUploadBPS :=
          if quota.overageUploadBPS = 0 then defaultOverageUploadBPS else quota.overageUploadBPS
        overageDownloadBPS :=
          if quota.overageDownloadBPS = 0 then defaultOverageDownloadBPS else quota.overageDownloadBPS }
  else if raw.window ≠ "" then .error "quota window requires a byte limit"
  else .ok quota

/-- One round of the loop in `parseReports`: an empty text keeps the default. -/
def parseRetention (lib : Stdlib) (name raw : String) (fallback : Int) : Except String Int :=
  if raw = "" then .ok fallback
  else
    match parseFlexibleDuration lib raw with
    | .error _ => .error ("traffic-control reports " ++ name ++ " is invalid")
    | .ok duration =>
      if duration < 24 * durationHour ∨ 10 * 365 * 24 * durationHour < duration then
        .error ("traffic-control reports " ++ name ++ " is invalid")
      else .ok duration

def parseReports (lib : Stdlib) (raw : RawReportsConfig) : Except String ReportsConfig := do
  let hourly ← parseRetention lib "hourly-retention" raw.hourlyRetention defaultHourlyRetention
  let daily ← parseRetention lib "daily-retention" raw.dailyRetention defaultDailyRetention
  let monthly ← parseRetention lib "monthly-retention" raw.monthlyRetention defaultMonthlyRetention
  let orphan ← parseRetention lib "orphan-retention" raw.orphanRetention defaultOrphanRetention
  return ⟨raw.enabled.getD true, hourly, daily, monthly, orphan⟩

theorem except_bind_eq_ok {α β : Type} {x : Except String α} {f : α → Except String β} {b : β}
    (h : x >>= f = .ok b) : ∃ a, x = .ok a ∧ f a = .ok b := by
  cases x with
  | error => cases h
  | ok a => exact ⟨a, rfl, h⟩

theorem durationUnit_minutes {unit : List Char} {multiplier : Int}
    (h : durationUnit unit = some multiplier) : durationMinute ∣ multiplier := by
  unfold durationUnit at h
  split_ifs at h <;> cases Option.some.inj h <;>
    simp only [durationMinute, durationHour, durationDay] <;> omega

theorem parseTerms_minutes {fuel : Nat} {value : List Char} {total result : Int}
    (hw : durationMinute ∣ total) (h : parseTerms fuel value total = .ok result) : durationMinute ∣ result := by
  induction fuel generalizing value total with
  | zero =>
    cases value with
    | nil => cases h; exact hw
    | cons => cases h
  | succ _ ih =>
    cases value with
    | nil => cases h; exact hw
    | cons =>
      simp only [parseTerms, ite_error_eq_ok] at h
      obtain ⟨_, _, h⟩ := h
      split at h
      · cases h
      next hh =>
        simp only [ite_error_eq_ok] at h
        exact ih (Int.dvd_add hw (Int.dvd_mul_of_dvd_right (durationUnit_minutes hh))) h.2.2

variable {lib : Stdlib}

theorem parseFlexibleDuration_minutes {value : String} {result : Int}
    (h : parseFlexibleDuration lib value = .ok result) : durationMinute ∣ result := by
  exact parseTerms_minutes (Int.dvd_zero _) (ite_error_eq_ok.mp h).2

def AcceptedRetention (d : Int) : Prop := durationDay ≤ d ∧ durationMinute ∣ d

theorem parseRetention_accepted {name raw : String} {fallback d : Int}
    (hd : AcceptedRetention fallback) (h : parseRetention lib name raw fallback = .ok d) : AcceptedRetention d := by
  unfold parseRetention at h
  split at h
  · cases h; exact hd
  · split at h
    · cases h
    next hp =>
      obtain ⟨_, h⟩ := ite_error_eq_ok.mp h
      cases h
      exact ⟨by unfold durationDay; omega, parseFlexibleDuration_minutes hp⟩

structure ReportsConfig.Accepted (reports : ReportsConfig) : Prop where
  hourly : AcceptedRetention reports.hourlyRetention
  daily : AcceptedRetention reports.dailyRetention
  monthly : AcceptedRetention reports.monthlyRetention
  orphan : AcceptedRetention reports.orphanRetention

theorem parseReports_accepted {raw : RawReportsConfig} {reports : ReportsConfig}
    (h : parseReports lib raw = .ok reports) : reports.Accepted := by
  obtain ⟨_, hh, h⟩ := except_bind_eq_ok h
  obtain ⟨_, hd, h⟩ := except_bind_eq_ok h
  obtain ⟨_, hm, h⟩ := except_bind_eq_ok h
  obtain ⟨_, ho, h⟩ := except_bind_eq_ok h
  cases h
  exact ⟨parseRetention_accepted ⟨by decide, by decide⟩ hh, parseRetention_accepted ⟨by decide, by decide⟩ hd,
    parseRetention_accepted ⟨by decide, by decide⟩ hm, parseRetention_accepted ⟨by decide, by decide⟩ ho⟩

theorem parseQuota_window {raw : RawQuotaConfig} {quota : QuotaConfig} (h : parseQuota lib raw = .ok quota) :
    quota.window = 0 ∨ (minQuotaWindow ≤ quota.window ∧ quota.window ≤ maxQuotaWindow) := by
  obtain ⟨_, h⟩ := ite_error_eq_ok.mp h
  split at h
  · split at h
    · cases h
    next window hp =>
      obtain ⟨_, h⟩ := ite_error_eq_ok.mp h
      cases h
      exact .inr ⟨by simp only; omega, by simp only; omega⟩
  · obtain ⟨_, h⟩ := ite_error_eq_ok.mp h
    cases h
    exact .inl rfl

end AsterCore
