import AsterCore.TrafficConfig

namespace AsterCore

def isAlnum (c : Char) : Bool := c.isAlpha || c.isDigit

/-- `idPattern`, `^[A-Za-z0-9][A-Za-z0-9._-]{0,127}$`. -/
def idPattern (id : String) : Bool :=
  match id.toList with
  | [] => false
  | c :: rest =>
    isAlnum c && rest.length ≤ 127 && rest.all (fun c => isAlnum c || c == '.' || c == '_' || c == '-')

def isHexDigit (c : Char) : Bool := c.isDigit || ('a' ≤ c && c ≤ 'f') || ('A' ≤ c && c ≤ 'F')

/-- `macPattern`: six pairs of hexadecimal digits joined by colons. -/
def macPattern (mac : String) : Bool :=
  let groups := mac.toList.splitOn ':'
  groups.length == 6 && groups.all (fun pair => pair.length == 2 && pair.all isHexDigit)

/-- `stableID`: the first part and sixteen hexadecimal digits of the digest of all of them. -/
def stableID (lib : Stdlib) (parts : List String) : String :=
  parts.headD "" ++ "-" ++ String.ofList ((lib.sha256Hex (joinWith "\x00" parts)).toList.take 16)

def canonicalRuleType (lib : Stdlib) (value : String) : String :=
  String.ofList ((lib.toUpper (trimSpace value)).toList.filter (fun c => c != '-' && c != '_' && c != ' '))

/-- `strconv.ParseUint(payload, 10, 16)`. -/
def parsePort (payload : String) : Option Nat :=
  let digits := payload.toList
  if digits.isEmpty || !digits.all Char.isDigit || 65535 < decimalValue digits then none
  else some (decimalValue digits)

def canonicalPayload (lib : Stdlib) (ruleType payload : String) : String :=
  let payload := trimSpace payload
  let joined := joinWith " " (fields payload)
  if ruleType ∈ ["DOMAIN", "DOMAINSUFFIX", "DOMAINWILDCARD", "GEOSITE", "GEOIP", "SRCGEOIP"] then
    lib.toLower payload
  else if ruleType ∈ ["IPCIDR", "IPCIDR6", "SRCIPCIDR", "SRCIPCIDR6"] then
    match lib.parsePrefix payload with
    | .ok p => lib.prefixString p.masked
    | .error _ => joined
  else if ruleType ∈ ["DSTPORT", "SRCPORT", "INPORT"] then
    match parsePort payload with
    | some number => toString number
    | none => joined
  else joined

def canonicalRule (lib : Stdlib) (ruleType payload target : String) : RuleSelector :=
  let ruleType := canonicalRuleType lib ruleType
  let target := trimSpace target
  let payload := canonicalPayload lib ruleType payload
  { type := ruleType, payload := payload, target := target,
    fingerprint := lib.sha256Hex (ruleType ++ "\x00" ++ payload ++ "\x00" ++ target) }

def parsePolicy (lib : Stdlib) (kind : PolicyKind) (raw : RawPolicy) : Except String Policy :=
  if raw.uploadBPS < 0 ∨ raw.downloadBPS < 0 then .error "rates cannot be negative"
  else do
    let quota ← parseQuota lib raw.quota
    return { id := trimSpace raw.id, name := trimSpace raw.name, kind := kind,
             enabled := raw.enabled.getD true, uploadBPS := raw.uploadBPS,
             downloadBPS := raw.downloadBPS, quota := quota }

/-- The policies collected so far; the map `ids` of the source is their identifiers. -/
structure PolicyList where
  policies : List Policy
  idsNodup : (policies.map Policy.id).Nodup

theorem idsNodup_concat {policies : List Policy} {policy : Policy}
    (hn : (policies.map Policy.id).Nodup) (hf : policy.id ∉ policies.map Policy.id) :
    ((policies ++ [policy]).map Policy.id).Nodup := by
  rw [List.map_append, List.nodup_append]
  refine ⟨hn, by simp, ?_⟩
  intro a ha b hb eq
  have : b = policy.id := by simpa using hb
  exact hf (by rw [← this, ← eq]; exact ha)

def addPolicy (lib : Stdlib) (list : PolicyList) (policy : Policy) : Except String PolicyList :=
  if !idPattern policy.id then
    .error ("traffic-control policy id " ++ lib.quote policy.id ++ " is invalid")
  else if h : policy.id ∈ list.policies.map Policy.id then
    .error ("traffic-control policy id " ++ lib.quote policy.id ++ " is duplicated")
  else .ok ⟨list.policies ++ [policy], idsNodup_concat list.idsNodup h⟩

/-- `fmt.Errorf(context + ": %w", err)`. -/
def wrapError {α : Type} (context : String) (x : Except String α) : Except String α :=
  match x with
  | .ok a => .ok a
  | .error e => .error (context ++ ": " ++ e)

def parseGlobal (lib : Stdlib) (list : PolicyList) (raw : RawPolicy) : Except String PolicyList := do
  let policy ← wrapError "traffic-control global" (parsePolicy lib .global raw)
  addPolicy lib list { policy with id := if policy.id = "" then "global" else policy.id }

def parseDevice (lib : Stdlib) (list : PolicyList) (i : Nat) (device : RawDevicePolicy) :
    Except String PolicyList := do
  let policy ← wrapError ("traffic-control device " ++ toString i) (parsePolicy lib .device device.toRawPolicy)
  let mac := if device.mac = "" then "" else lib.toLower (trimSpace device.mac)
  if device.mac ≠ "" ∧ macPattern mac = false then
    .error ("traffic-control device " ++ toString i ++ " has invalid MAC")
  else
    let id := if policy.id = "" then stableID lib ["device", mac, joinWith "," device.sourceCIDRs] else policy.id
    let cidrs ← device.sourceCIDRs.mapM (fun value =>
      wrapError ("traffic-control device " ++ lib.quote id ++ " source-cidrs")
        ((lib.parsePrefix (trimSpace value)).map Prefix.masked))
    if cidrs = [] then
      if mac ≠ "" then
        .error ("traffic-control device " ++ lib.quote id ++
          " MAC matching is not available; source-cidrs is required")
      else .error ("traffic-control device " ++ lib.quote id ++ " requires source-cidrs")
    else addPolicy lib list { policy with id := id, mac := mac, sourceCIDRs := cidrs }

def parseRule (lib : Stdlib) (list : PolicyList) (i : Nat) (rule : RawRulePolicy) :
    Except String PolicyList := do
  let policy ← wrapError ("traffic-control rule " ++ toString i) (parsePolicy lib .rule rule.toRawPolicy)
  let selector := canonicalRule lib rule.type rule.payload rule.target
  if selector.type = "" ∨ selector.target = "" then
    .error ("traffic-control rule " ++ toString i ++ " requires type and target")
  else
    let id := if policy.id = "" then "rule-" ++ String.ofList (selector.fingerprint.toList.take 16) else policy.id
    addPolicy lib list { policy with id := id, rule := selector }

def parseTarget (lib : Stdlib) (list : PolicyList) (i : Nat) (target : RawTargetPolicy) :
    Except String PolicyList := do
  let policy ← wrapError ("traffic-control target " ++ toString i) (parsePolicy lib .target target.toRawPolicy)
  let kind := lib.toLower (trimSpace target.kind)
  let name := trimSpace target.target
  if kind ≠ "proxy" ∧ kind ≠ "group" then
    .error ("traffic-control target " ++ toString i ++ " kind must be proxy or group")
  else if name = "" then .error ("traffic-control target " ++ toString i ++ " requires target")
  else
    let id := if policy.id = "" then stableID lib ["target", kind, name] else policy.id
    addPolicy lib list { policy with id := id, target := ⟨kind, name⟩ }

/-- A loop `for i, x := range xs` whose body may fail. -/
def forIndexed {α β : Type} (body : β → Nat → α → Except String β) :
    Nat → List α → β → Except String β
  | _, [], acc => .ok acc
  | i, x :: xs, acc => do
    let acc ← body acc i x
    forIndexed body (i + 1) xs acc

def maxTrafficControlPolicies : Nat := 256

def parseCheckpoint (lib : Stdlib) (raw : String) : Except String Int :=
  match parseOptionalDuration lib raw defaultCheckpointInterval with
  | .error _ => .error "traffic-control checkpoint-interval must be between 1m and 1h"
  | .ok d =>
    if d < durationMinute ∨ durationHour < d then
      .error "traffic-control checkpoint-interval must be between 1m and 1h"
    else .ok d

def parseGlobals (lib : Stdlib) (list : PolicyList) : Option RawPolicy → Except String PolicyList
  | none => .ok list
  | some policy => parseGlobal lib list policy

def policyCount (raw : RawConfig) : Nat :=
  raw.devices.length + raw.rules.length + raw.targets.length + (if raw.global.isSome then 1 else 0)

def parsePolicies (lib : Stdlib) (raw : RawConfig) : Except String PolicyList := do
  let list ← parseGlobals lib ⟨[], List.nodup_nil⟩ raw.global
  let list ← forIndexed (parseDevice lib) 0 raw.devices list
  let list ← forIndexed (parseRule lib) 0 raw.rules list
  forIndexed (parseTarget lib) 0 raw.targets list

def parseConfig (lib : Stdlib) (raw : RawConfig) (resolvePath : String → Except String String) :
    Except String (Option Config) :=
  if !raw.enabled then .ok none
  else do
    let requested := if trimSpace raw.store = "" then "traffic-control.db" else trimSpace raw.store
    let store ← wrapError "traffic-control store" (resolvePath requested)
    let checkpoint ← parseCheckpoint lib raw.checkpointInterval
    let maxStoreSize := if raw.maxStoreSize = 0 then defaultStoreLimit else raw.maxStoreSize
    if maxStoreSize < 4194304 ∨ 1073741824 < maxStoreSize then
      .error "traffic-control max-store-size must be between 4 MiB and 1 GiB"
    else do
      let reports ← parseReports lib raw.reports
      if maxTrafficControlPolicies < policyCount raw then
        .error ("traffic-control policy count " ++ toString (policyCount raw) ++ " exceeds maximum " ++
          toString maxTrafficControlPolicies)
      else do
        let list ← parsePolicies lib raw
        return some { storePath := lib.cleanPath store, requestedStore := requested, checkpointInterval := checkpoint,
                      maxStoreSize := maxStoreSize, portal := raw.portal, reports := reports,
                      policies := list.policies, idsNodup := list.idsNodup }

/-- `policyIdentity`: what must stay the same for a policy to keep its history. -/
def policyIdentity (lib : Stdlib) (policy : Policy) : String :=
  stableID lib ([policy.kind.string, policy.mac, policy.rule.fingerprint, policy.target.kind,
    policy.target.name, lib.durationString policy.quota.window] ++ policy.sourceCIDRs.map lib.prefixString)

end AsterCore
