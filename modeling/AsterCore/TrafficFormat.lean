import AsterCore.GoText
import AsterCore.TrafficParse

namespace AsterCore

open List

def formatFlexibleDuration (d : Int) : String :=
  if d ≤ 0 then ""
  else if d % durationDay = 0 then toString (d / durationDay) ++ "d"
  else if d % durationHour = 0 then toString (d / durationHour) ++ "h"
  else if d % durationMinute = 0 then toString (d / durationMinute) ++ "m"
  else
    let minutes := if d % durationMinute ≠ 0 then d / durationMinute + 1 else d / durationMinute
    toString (if minutes < 1 then 1 else minutes) ++ "m"

def QuotaConfig.raw (quota : QuotaConfig) : RawQuotaConfig where
  totalBytes := quota.totalBytes
  uploadBytes := quota.uploadBytes
  downloadBytes := quota.downloadBytes
  window := formatFlexibleDuration quota.window
  overageUploadBPS := quota.overageUploadBPS
  overageDownloadBPS := quota.overageDownloadBPS
  portal := some quota.portal

def ReportsConfig.raw (reports : ReportsConfig) : RawReportsConfig where
  enabled := some reports.enabled
  hourlyRetention := formatFlexibleDuration reports.hourlyRetention
  dailyRetention := formatFlexibleDuration reports.dailyRetention
  monthlyRetention := formatFlexibleDuration reports.monthlyRetention
  orphanRetention := formatFlexibleDuration reports.orphanRetention

/-- The part of `Raw` that all kinds of policies share. -/
def Policy.raw (policy : Policy) : RawPolicy where
  id := policy.id
  name := policy.name
  enabled := some policy.enabled
  uploadBPS := policy.uploadBPS
  downloadBPS := policy.downloadBPS
  quota := policy.quota.raw

def Policy.rawDevice (lib : Stdlib) (policy : Policy) : RawDevicePolicy :=
  { policy.raw with mac := policy.mac, sourceCIDRs := policy.sourceCIDRs.map lib.prefixString }

def Policy.rawRule (policy : Policy) : RawRulePolicy :=
  { policy.raw with type := policy.rule.type, payload := policy.rule.payload, target := policy.rule.target }

def Policy.rawTarget (policy : Policy) : RawTargetPolicy :=
  { policy.raw with kind := policy.target.kind, target := policy.target.name }

/-- One round of the loop over the policies in `Raw`. -/
def RawConfig.addPolicy (lib : Stdlib) (raw : RawConfig) (policy : Policy) : RawConfig :=
  match policy.kind with
  | .global => { raw with global := some policy.raw }
  | .device => { raw with devices := raw.devices ++ [policy.rawDevice lib] }
  | .rule => { raw with rules := raw.rules ++ [policy.rawRule] }
  | .target => { raw with targets := raw.targets ++ [policy.rawTarget] }

def Config.raw (lib : Stdlib) : Option Config → RawConfig
  | none => {}
  | some c =>
    if c.enabled then
      c.policies.foldl (RawConfig.addPolicy lib)
        { enabled := true
          store := if c.requestedStore = "" then c.storePath else c.requestedStore
          checkpointInterval := formatFlexibleDuration c.checkpointInterval
          maxStoreSize := c.maxStoreSize
          portal := c.portal
          reports := c.reports.raw }
    else {}

/-- A map over the runes of a text that does not change its own results and neither makes nor removes
spaces, as `unicode.ToLower` and `unicode.ToUpper` are. -/
structure RuneMap (text : String → String) (f : Char → Char) : Prop where
  map : ∀ s, text s = String.ofList (s.toList.map f)
  idem : ∀ c, f (f c) = f c
  space : ∀ c, isSpace (f c) = isSpace c

def isSeparator (c : Char) : Bool := c == '-' || c == '_' || c == ' '

/-- What the parsing of a configuration relies on in the standard library. -/
structure Stdlib.Lawful (lib : Stdlib) : Prop where
  lower : ∃ f, RuneMap lib.toLower f ∧ ∀ c, c.isDigit ∨ c.isLower → f c = c
  upper : ∃ f, RuneMap lib.toUpper f ∧ ∀ c, isSeparator (f c) = isSeparator c
  plainPrefix : ∀ s p, lib.parsePrefix s = .ok p → Plain s.toList
  parsePrefixString : ∀ s p, lib.parsePrefix s = .ok p → lib.parsePrefix (lib.prefixString p.masked) = .ok p.masked

section Runes

variable {text : String → String} {f : Char → Char}

theorem RuneMap.toList (hr : RuneMap text f) (s : String) : (text s).toList = s.toList.map f := by
  rw [hr.map, String.toList_ofList]

theorem RuneMap.trimmed (hr : RuneMap text f) {s : String} (h : Trimmed s.toList) : Trimmed (text s).toList := by
  rw [← trimSpaceList_eq_self_iff] at h ⊢
  rw [hr.toList, trimSpaceList_map hr.space, h]

theorem RuneMap.normal_idem (hr : RuneMap text f) (s : String) :
    text (trimSpace (text (trimSpace s))) = text (trimSpace s) := by
  have ht : Trimmed (text (trimSpace s)).toList := by
    apply hr.trimmed
    rw [toList_trimSpace]
    exact trimSpaceList_trimmed _
  rw [trimSpace_of_trimmed ht]
  apply String.toList_injective
  rw [hr.toList, hr.toList, map_map]
  apply map_congr_left
  intro c _
  exact hr.idem c

end Runes

section Durations

variable {lib : Stdlib}

theorem parseFlexibleDuration_term (hla : lib.Lawful) {n : Nat} {text : String} {unit : Char} {multiplier : Int}
    (pos : 0 < n) (one : text.toList = [unit]) (hle : unit = 'd' ∨ unit = 'h' ∨ unit = 'm')
    (hk : durationUnit [unit] = some multiplier)
    (hp : 0 < multiplier) (hr : n * multiplier ≤ maxDuration) :
    parseFlexibleDuration lib (toString n ++ text) = .ok (n * multiplier) := by
  obtain ⟨f, hru, hf⟩ := hla.lower
  have huf : unit.isDigit = false ∧ isSpace unit = false ∧ unit.isLower = true := by
    rcases hle with rfl | rfl | rfl <;> decide
  obtain ⟨ho, hv, hs⟩ := huf
  have hch : (toString n ++ text).toList = Nat.toDigits 10 n ++ [unit] := by
    rw [String.toList_append, show toString n = n.repr from rfl, Nat.repr_eq_ofList_toDigits, String.toList_ofList, one]
  have hl : (lib.toLower (toString n ++ text)).toList = Nat.toDigits 10 n ++ [unit] := by
    rw [hru.toList, hch]
    conv_rhs => rw [← map_id (Nat.toDigits 10 n ++ [unit])]
    apply map_congr_left
    intro c hc
    apply hf
    rcases mem_append.mp hc with hdi | last
    · exact .inl (toDigits_isDigit hdi)
    · rw [mem_singleton.mp last]
      exact .inr hs
  have hpl : Plain (Nat.toDigits 10 n ++ [unit]) := by
    intro c hc
    rcases mem_append.mp hc with hdi | last
    · exact isSpace_of_isDigit (toDigits_isDigit hdi)
    · rw [mem_singleton.mp last]
      exact hv
  have hd : (Nat.toDigits 10 n ++ [unit]).takeWhile Char.isDigit = Nat.toDigits 10 n := by
    rw [takeWhile_append_of_pos (fun c hc => toDigits_isDigit hc), takeWhile_cons_of_neg (by simp [ho]),
      append_nil]
  have ha : (Nat.toDigits 10 n ++ [unit]).dropWhile Char.isDigit = [unit] := by
    rw [dropWhile_append_of_pos (fun c hc => toDigits_isDigit hc), dropWhile_cons_of_neg (by simp [ho])]
  have least : (n : Int) ≤ n * multiplier := by
    have := Int.mul_le_mul_of_nonneg_left (show (1 : Int) ≤ multiplier by omega) (Int.natCast_nonneg n)
    omega
  have hq : ¬ maxDuration / multiplier < n := by
    have := (Int.le_ediv_iff_mul_le hp).mpr hr
    omega
  unfold parseFlexibleDuration
  simp only [hl, trimSpaceList_of_trimmed hpl.trimmed]
  rw [if_neg (by simp), length_append, length_singleton]
  cases list : Nat.toDigits 10 n ++ [unit] with
  | nil => simp at list
  | cons =>
    simp only [parseTerms]
    rw [← list, hd, ha, if_neg (by simp), decimalValue_toDigits, if_neg (by omega),
      takeWhile_cons_of_pos (by simp [ho]), takeWhile_nil, hk]
    simp only
    rw [if_neg hq, if_neg (by omega), dropWhile_cons_of_pos (by simp [ho]), zero_add]
    cases (Nat.toDigits 10 n).length <;> rfl

theorem parse_formatFlexibleDuration (hla : lib.Lawful) {d : Int} (pos : 0 < d) (hw : durationMinute ∣ d)
    (hr : d ≤ maxDuration) : parseFlexibleDuration lib (formatFlexibleDuration d) = .ok d := by
  have ht : ∀ {multiplier : Int} {text : String} {unit : Char}, text.toList = [unit] →
      (unit = 'd' ∨ unit = 'h' ∨ unit = 'm') → durationUnit [unit] = some multiplier → 0 < multiplier →
      d % multiplier = 0 → parseFlexibleDuration lib (toString (d / multiplier) ++ text) = .ok d := by
    intro multiplier _ _ one hl hk hp hd
    obtain ⟨k, rfl⟩ := Int.dvd_of_emod_eq_zero hd
    have hq : multiplier * k / multiplier = k := Int.mul_ediv_cancel_left k (by omega)
    have kpos : 0 < k := by
      by_contra neg
      have := Int.mul_nonpos_of_nonneg_of_nonpos (show 0 ≤ multiplier by omega) (show k ≤ 0 by omega)
      omega
    obtain ⟨n, rfl⟩ := Int.eq_ofNat_of_zero_le (show 0 ≤ k by omega)
    rw [hq, show multiplier * (n : Int) = n * multiplier from Int.mul_comm _ _]
    exact parseFlexibleDuration_term hla (by omega) one hl hk hp (by rw [Int.mul_comm]; exact hr)
  unfold formatFlexibleDuration
  rw [if_neg (by omega)]
  split
  next days => exact ht (by decide) (.inl rfl) rfl (by decide) days
  · split
    next hh => exact ht (by decide) (.inr (.inl rfl)) rfl (by decide) hh
    · rw [if_pos (Int.emod_eq_zero_of_dvd hw)]
      exact ht (by decide) (.inr (.inr rfl)) rfl (by decide) (Int.emod_eq_zero_of_dvd hw)

theorem formatFlexibleDuration_ne_empty {d : Int} (pos : 0 < d) : formatFlexibleDuration d ≠ "" := by
  have ha : ∀ {s unit : String}, unit ≠ "" → s ++ unit ≠ "" := by
    intro s _ hs h
    have hc := congrArg String.toList h
    simp [hs] at hc
  unfold formatFlexibleDuration
  rw [if_neg (by omega)]
  split
  · exact ha (by decide)
  · split
    · exact ha (by decide)
    · split
      · exact ha (by decide)
      · exact ha (by decide)

end Durations

section Canonical

variable {lib : Stdlib}

theorem clearLow_idem {w : Nat} (x : BitVec w) (k : Nat) : (x >>> k <<< k) >>> k <<< k = x >>> k <<< k := by
  ext i hi
  by_cases low : i < k
  · simp [low]
  · have hb : k + (i - k) = i := by omega
    simp [hb, hi]

theorem Prefix.masked_idem (p : Prefix) : p.masked.masked = p.masked := by
  obtain ⟨addr, bits⟩ := p
  cases addr with
  | invalid => rfl
  | v4 =>
    unfold masked
    by_cases hr : bits ≤ 32
    · simp only [if_pos hr, clearLow_idem]
    · simp only [if_neg hr]
  | v6 =>
    unfold masked
    by_cases hr : bits ≤ 128
    · simp only [if_pos hr, clearLow_idem]
    · simp only [if_neg hr]

/-- The text of a rule type after its separators are removed neither starts nor ends with a space. -/
def settledRuleType (type : String) : Bool :=
  decide (Trimmed ((trimSpaceList type.toList).filter (fun c => !isSeparator c)))

theorem canonicalRuleType_eq (lib : Stdlib) (type : String) :
    (canonicalRuleType lib type).toList = (lib.toUpper (trimSpace type)).toList.filter (fun c => !isSeparator c) := by
  rw [canonicalRuleType, String.toList_ofList]
  apply filter_congr
  simp [isSeparator, bne]

theorem canonicalRuleType_idem_iff (hla : lib.Lawful) (type : String) :
    canonicalRuleType lib (canonicalRuleType lib type) = canonicalRuleType lib type ↔ settledRuleType type = true := by
  obtain ⟨f, hr, hs⟩ := hla.upper
  generalize hw : canonicalRuleType lib type = w
  have hch : w.toList = ((trimSpaceList type.toList).filter (fun c => !isSeparator c)).map f := by
    rw [← hw, canonicalRuleType_eq, hr.toList, toList_trimSpace, filter_map]
    congr 1
    apply filter_congr
    simp [hs]
  have hse : settledRuleType type = true ↔ Trimmed w.toList := by
    unfold settledRuleType
    rw [decide_eq_true_eq, ← trimSpaceList_eq_self_iff, ← trimSpaceList_eq_self_iff, hch, trimSpaceList_map hr.space]
    refine ⟨fun h => by rw [h], fun h => ?_⟩
    -- both sides are as long as before
    have sub := trimSpaceList_sublist ((trimSpaceList type.toList).filter (fun c => !isSeparator c))
    refine sub.eq_of_length ?_
    have hl := congrArg length h
    simpa using hl
  have ha : (canonicalRuleType lib w).toList = ((trimSpaceList w.toList).map f).filter (fun c => !isSeparator c) := by
    rw [canonicalRuleType_eq, hr.toList, toList_trimSpace]
  rw [hse]
  constructor
  · intro same
    have hl : w.toList.length ≤ (trimSpaceList w.toList).length := by
      calc w.toList.length = (canonicalRuleType lib w).toList.length := by rw [same]
        _ ≤ ((trimSpaceList w.toList).map f).length := by rw [ha]; exact length_filter_le _ _
        _ = (trimSpaceList w.toList).length := length_map _
    exact trimSpaceList_eq_self_iff.mp ((trimSpaceList_sublist w.toList).eq_of_length_le hl)
  · intro ht
    apply String.toList_injective
    rw [ha, trimSpaceList_of_trimmed ht]
    have hf : w.toList.map f = w.toList := by
      rw [hch, map_map]
      apply map_congr_left
      intro c _
      exact hr.idem c
    rw [hf]
    apply filter_eq_self.mpr
    intro c hc
    rw [hch] at hc
    obtain ⟨d, hd, rfl⟩ := mem_map.mp hc
    rw [hs]
    exact (mem_filter.mp hd).2

theorem parsePort_toString {n : Nat} (hr : n ≤ 65535) : parsePort (toString n) = some n := by
  have hch : (toString n).toList = Nat.toDigits 10 n := by
    rw [show toString n = n.repr from rfl, Nat.repr_eq_ofList_toDigits, String.toList_ofList]
  have hd : (Nat.toDigits 10 n).all Char.isDigit = true := all_eq_true.mpr fun c hc => toDigits_isDigit hc
  unfold parsePort
  simp only [hch, decimalValue_toDigits, hd]
  simp [Nat.not_lt.mpr hr]

theorem parsePort_some {payload : String} {n : Nat} (h : parsePort payload = some n) : n ≤ 65535 ∧ Plain payload.toList := by
  unfold parsePort at h
  simp only at h
  split at h <;> cases h
  next bad =>
    simp only [Bool.or_eq_true, Bool.not_eq_true', decide_eq_true_eq, not_or, Bool.not_eq_false] at bad
    exact ⟨by omega, fun c hc => isSpace_of_isDigit (all_eq_true.mp bad.1.2 c hc)⟩

theorem plain_toString (n : Nat) : Plain (toString n).toList := by
  rw [show toString n = n.repr from rfl, Nat.repr_eq_ofList_toDigits, String.toList_ofList]
  exact fun c hc => isSpace_of_isDigit (toDigits_isDigit hc)

theorem joinFields_idem (payload : String) :
    trimSpace (joinWith " " (fields payload)) = joinWith " " (fields payload) ∧
      joinWith " " (fields (joinWith " " (fields payload))) = joinWith " " (fields payload) := by
  refine ⟨trimSpace_of_trimmed (joinWith_trimmed fun word hw => fields_mem hw), ?_⟩
  rw [fields_joinWith fun word hw => fields_mem hw]

theorem canonicalPayload_idem (hl : lib.Lawful) (type payload : String) :
    canonicalPayload lib type (canonicalPayload lib type payload) = canonicalPayload lib type payload := by
  obtain ⟨f, hr, _⟩ := hl.lower
  obtain ⟨hjt, hja⟩ := joinFields_idem (trimSpace payload)
  have ht : Trimmed (trimSpace payload).toList := by
    rw [toList_trimSpace]
    exact trimSpaceList_trimmed _
  by_cases hd : type ∈ ["DOMAIN", "DOMAINSUFFIX", "DOMAINWILDCARD", "GEOSITE", "GEOIP", "SRCGEOIP"]
  · simp only [canonicalPayload, if_pos hd]
    exact hr.normal_idem payload
  · by_cases hc : type ∈ ["IPCIDR", "IPCIDR6", "SRCIPCIDR", "SRCIPCIDR6"]
    · simp only [canonicalPayload, if_neg hd, if_pos hc]
      cases hp : lib.parsePrefix (trimSpace payload) with
      | ok p =>
        have ha := hl.parsePrefixString _ p hp
        rw [trimSpace_of_trimmed (hl.plainPrefix _ _ ha).trimmed, ha]
        simp only
        rw [Prefix.masked_idem]
      | error e =>
        rw [hjt, hja]
        -- joining cannot make a prefix of a text that was none
        cases ha : lib.parsePrefix (joinWith " " (fields (trimSpace payload))) with
        | error => rfl
        | ok =>
          rw [joinWith_fields_of_plain ht (hl.plainPrefix _ _ ha), hp] at ha
          cases ha
    · by_cases port : type ∈ ["DSTPORT", "SRCPORT", "INPORT"]
      · simp only [canonicalPayload, if_neg hd, if_neg hc, if_pos port]
        cases hp : parsePort (trimSpace payload) with
        | some n =>
          rw [trimSpace_of_trimmed (plain_toString n).trimmed, parsePort_toString (parsePort_some hp).1]
        | none =>
          rw [hjt, hja]
          cases ha : parsePort (joinWith " " (fields (trimSpace payload))) with
          | none => rfl
          | some =>
            rw [joinWith_fields_of_plain ht (parsePort_some ha).2, hp] at ha
            cases ha
      · simp only [canonicalPayload, if_neg hd, if_neg hc, if_neg port]
        rw [hjt, hja]

theorem canonicalRule_idem (hl : lib.Lawful) {type payload target : String}
    (hs : canonicalRuleType lib (canonicalRuleType lib type) = canonicalRuleType lib type) :
    let rule := canonicalRule lib type payload target
    canonicalRule lib rule.type rule.payload rule.target = rule := by
  simp only [canonicalRule, hs, trimSpace_idem, canonicalPayload_idem hl]

end Canonical

end AsterCore
