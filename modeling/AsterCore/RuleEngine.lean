import AsterCore.GoNetip

namespace AsterCore.Tunnel

inductive NetWork
  | tcp | udp
  deriving DecidableEq

/-- `constant.Type`: the kind of inbound a connection came in by. -/
inductive InboundType
  | http | https | socks4 | socks5 | shadowsocks | snell | vmess | vless | redir | tproxy | trojan | tunnel | tun | tuic
  | hysteria2 | anytls | mieru | sudoku | trusttunnel | shadowquic | inner
  deriving DecidableEq

inductive AdapterType
  | direct | reject | rejectDrop | compatible | pass | passRule | rematch | dns | relay | selector | fallback | urlTest
  | loadBalance | shadowsocks | shadowsocksR | snell | socks5 | http | vmess | vless | trojan | hysteria | hysteria2
  | wireGuard | tuic | ssh | mieru | anyTLS | sudoku | masque | trustTunnel | shadowQuic | openVPN | tailscale | gostRelay
  deriving DecidableEq

inductive RuleType
  | domain | domainSuffix | domainKeyword | domainRegex | domainWildcard | geosite | geoip | srcGEOIP | ipasn | srcIPASN
  | ipcidr | srcIPCIDR | ipSuffix | srcIPSuffix | srcPort | dstPort | inPort | dscp | inUser | inName | inType
  | processName | processPath | processNameRegex | processPathRegex | processNameWildcard | processPathWildcard
  | rematchName | ruleSet | network | uid | subRules | final | and | or | not
  deriving DecidableEq

structure Metadata where
  network : NetWork := .tcp
  type : InboundType := .tun
  srcIP : Addr := .invalid
  dstIP : Addr := .invalid
  srcPort : UInt16 := 0
  dstPort : UInt16 := 0
  inPort : UInt16 := 0
  inName : String := ""
  inUser : String := ""
  rematchName : String := ""
  host : String := ""
  uid : UInt32 := 0
  process : String := ""
  processPath : String := ""
  specialProxy : String := ""
  specialRules : String := ""
  dscp : UInt8 := 0
  sniffHost : String := ""
  deriving DecidableEq

def Metadata.ruleHost (m : Metadata) : String := if m.sniffHost = "" then m.host else m.sniffHost

def Metadata.swapSrcDst (m : Metadata) : Metadata :=
  { m with srcIP := m.dstIP, dstIP := m.srcIP, srcPort := m.dstPort, dstPort := m.srcPort }

structure Process where
  uid : UInt32
  process : String
  processPath : String

/-- The answers of the world: the resolver's, and what the process fields are after a lookup. -/
structure Lookups where
  resolveIP : String → Option Addr
  findProcess : Metadata → Process

structure MatchContext where
  metadata : Metadata
  resolved : Bool := false
  attemptProcessLookup : Bool := false

namespace MatchContext

def resolveIP (env : Lookups) (c : MatchContext) : MatchContext :=
  if c.resolved || c.metadata.host = "" || c.metadata.dstIP.isValid then c
  else
    let found := match env.resolveIP c.metadata.host with
      | some ip => { c.metadata with dstIP := ip }
      | none => c.metadata
    { c with metadata := found, resolved := true }

def findProcess (env : Lookups) (c : MatchContext) : MatchContext :=
  if !c.attemptProcessLookup then c
  else
    let p := env.findProcess c.metadata
    { c with
      metadata := { c.metadata with uid := p.uid, process := p.process, processPath := p.processPath }
      attemptProcessLookup := false }

end MatchContext

/-- `RuleMatchHelper`: which of the two lookups are given, and the test for adapters that pass a rule. -/
structure Helper where
  resolveIP : Bool := false
  findProcess : Bool := false
  checkPassRule : Metadata → String → Bool := fun _ _ => false

inductive HostKind
  | domain | domainSuffix | domainKeyword | domainRegex | domainWildcard | geosite
  deriving DecidableEq

inductive AddressKind
  | geoip | ipasn | ipcidr | ipSuffix
  deriving DecidableEq

inductive ContextKind
  | srcPort | dstPort | inPort | dscp | inUser | processName | processPath | processNameRegex | processPathRegex
  | processNameWildcard | processPathWildcard | rematchName | network | uid
  deriving DecidableEq

inductive LogicKind
  | and | or | not
  deriving DecidableEq

mutual

/-- A rule with what it tests and the name of its adapter. A SUB-RULE rule has the list its name stands for, so no list
leads back to itself. -/
inductive Rule
  | host (kind : HostKind) (test : String → Bool) (adapter : String)
  | address (kind : AddressKind) (isSourceIP noResolveIP : Bool) (test : Addr → Bool) (adapter : String)
  | inName (names : List String) (adapter : String)
  | inType (types : List InboundType) (adapter : String)
  | context (kind : ContextKind) (test : Metadata → Bool) (adapter : String)
  | final (adapter : String)
  | ruleSet (provider : RuleProvider) (isSrc noResolveIP : Bool) (adapter : String)
  | logic (kind : LogicKind) (rules : List Rule) (adapter : String)
  | subRules (condition : Rule) (name : String) (rules : List Rule)
  | wrapper (rule : Rule) (disabled : Bool)

inductive RuleProvider
  | missing
  | domain (has : String → Bool)
  | ipcidr (isContain : Addr → Bool)
  | classical (rules : List Rule) (has : String → Bool)

end

def HostKind.ruleType : HostKind → RuleType
  | .domain => .domain
  | .domainSuffix => .domainSuffix
  | .domainKeyword => .domainKeyword
  | .domainRegex => .domainRegex
  | .domainWildcard => .domainWildcard
  | .geosite => .geosite

def AddressKind.ruleType : AddressKind → Bool → RuleType
  | .geoip, isSourceIP => if isSourceIP then .srcGEOIP else .geoip
  | .ipasn, isSourceIP => if isSourceIP then .srcIPASN else .ipasn
  | .ipcidr, isSourceIP => if isSourceIP then .srcIPCIDR else .ipcidr
  | .ipSuffix, isSourceIP => if isSourceIP then .srcIPSuffix else .ipSuffix

def ContextKind.ruleType : ContextKind → RuleType
  | .srcPort => .srcPort
  | .dstPort => .dstPort
  | .inPort => .inPort
  | .dscp => .dscp
  | .inUser => .inUser
  | .processName => .processName
  | .processPath => .processPath
  | .processNameRegex => .processNameRegex
  | .processPathRegex => .processPathRegex
  | .processNameWildcard => .processNameWildcard
  | .processPathWildcard => .processPathWildcard
  | .rematchName => .rematchName
  | .network => .network
  | .uid => .uid

def ContextKind.findsProcess : ContextKind → Bool
  | .processName | .processPath | .processNameRegex | .processPathRegex | .processNameWildcard | .processPathWildcard | .uid => true
  | _ => false

def LogicKind.ruleType : LogicKind → RuleType
  | .and => .and
  | .or => .or
  | .not => .not

namespace Rule

def ruleType : Rule → RuleType
  | host kind _ _ => kind.ruleType
  | address kind isSourceIP _ _ _ => kind.ruleType isSourceIP
  | inName _ _ => .inName
  | inType _ _ => .inType
  | context kind _ _ => kind.ruleType
  | final _ => .final
  | ruleSet _ _ _ _ => .ruleSet
  | logic kind _ _ => kind.ruleType
  | subRules _ _ _ => .subRules
  | wrapper rule _ => rule.ruleType

def adapter : Rule → String
  | host _ _ adapter => adapter
  | address _ _ _ _ adapter => adapter
  | inName _ adapter => adapter
  | inType _ adapter => adapter
  | context _ _ adapter => adapter
  | final adapter => adapter
  | ruleSet _ _ _ adapter => adapter
  | logic _ _ adapter => adapter
  | subRules _ name _ => name
  | wrapper rule _ => rule.adapter

end Rule

/-- What `Match` gives: whether the rule matches and the adapter's name, which is read after a match only. -/
abbrev Matched := (Bool × String) × MatchContext

mutual

def Rule.matches (env : Lookups) : Rule → Helper → MatchContext → Matched
  | .host _ test adapter, _, c => ((test c.metadata.ruleHost, adapter), c)
  | .address _ isSourceIP noResolveIP test adapter, h, c =>
    let c := if !noResolveIP && !isSourceIP && h.resolveIP then c.resolveIP env else c
    let ip := if isSourceIP then c.metadata.srcIP else c.metadata.dstIP
    ((ip.isValid && test ip, adapter), c)
  | .inName names adapter, _, c => ((names.contains c.metadata.inName, adapter), c)
  | .inType types adapter, _, c => ((types.contains c.metadata.type, adapter), c)
  | .context kind test adapter, h, c =>
    let c := if kind.findsProcess && h.findProcess then c.findProcess env else c
    ((test c.metadata, adapter), c)
  | .final adapter, _, c => ((true, adapter), c)
  | .ruleSet provider isSrc noResolveIP adapter, h, c =>
    if isSrc then
      let (matched, c) := provider.matches env { h with resolveIP := false } { c with metadata := c.metadata.swapSrcDst }
      ((matched, adapter), { c with metadata := c.metadata.swapSrcDst })
    else
      let (matched, c) := provider.matches env (if noResolveIP then { h with resolveIP := false } else h) c
      ((matched, adapter), c)
  | .logic .and rules adapter, h, c =>
    let (matched, c) := matchesAll env rules h c
    ((matched, adapter), c)
  | .logic .or rules adapter, h, c =>
    let (matched, c) := matchesAny env rules h c
    ((matched, adapter), c)
  | .logic .not rules adapter, h, c =>
    -- the rule has one nested rule
    let (matched, c) := matchesAny env rules h c
    ((!matched, adapter), c)
  | .subRules condition _ rules, h, c =>
    let ((matched, _), c) := condition.matches env h c
    if matched then matchSubRules env rules h c else ((false, ""), c)
  | .wrapper rule disabled, h, c => if disabled then ((false, ""), c) else rule.matches env h c

def RuleProvider.matches (env : Lookups) : RuleProvider → Helper → MatchContext → Bool × MatchContext
  | .missing, _, c => (false, c)
  | .domain has, _, c => (has c.metadata.ruleHost, c)
  | .ipcidr isContain, h, c =>
    let c := if h.resolveIP && !c.metadata.dstIP.isValid then c.resolveIP env else c
    (isContain c.metadata.dstIP, c)
  | .classical rules has, h, c =>
    let (matched, c) := matchesAny env rules h c
    (matched || has c.metadata.ruleHost, c)

def matchesAny (env : Lookups) : List Rule → Helper → MatchContext → Bool × MatchContext
  | [], _, c => (false, c)
  | rule :: rules, h, c =>
    let ((matched, _), c) := rule.matches env h c
    if matched then (true, c) else matchesAny env rules h c

def matchesAll (env : Lookups) : List Rule → Helper → MatchContext → Bool × MatchContext
  | [], _, c => (true, c)
  | rule :: rules, h, c =>
    let ((matched, _), c) := rule.matches env h c
    if matched then matchesAll env rules h c else (false, c)

def matchSubRules (env : Lookups) : List Rule → Helper → MatchContext → Matched
  | [], _, c => ((false, ""), c)
  | rule :: rules, h, c =>
    let ((matched, name), c) := rule.matches env h c
    if matched then
      let ((matched, name), c) := rule.subRulesAgain env name h c
      if matched && (name = "PASS-RULE" || h.checkPassRule c.metadata name) then matchSubRules env rules h c
      else ((matched, name), c)
    else matchSubRules env rules h c

/-- A SUB-RULE rule of a sub-rule list that matched is asked for its list once more. -/
def Rule.subRulesAgain (env : Lookups) : Rule → String → Helper → MatchContext → Matched
  | .subRules _ _ rules, _, h, c => matchSubRules env rules h c
  | .wrapper rule _, name, h, c => rule.subRulesAgain env name h c
  | _, name, _, c => ((true, name), c)

end

/-- One adapter on the way through the groups: an adapter of type REMATCH has what it sets. -/
structure Layer where
  name : String
  type : AdapterType
  targetRematchName : Option String := none
  targetSubRule : Option String := none
  deriving DecidableEq

def Layer.applyMetadata (l : Layer) (m : Metadata) : Metadata :=
  { m with rematchName := l.targetRematchName.getD m.rematchName, specialRules := l.targetSubRule.getD m.specialRules }

/-- An adapter with those that `Unwrap` leads to. An adapter of type DIRECT holds no other and takes UDP. -/
structure Proxy where
  outer : Layer
  supportUDP : Bool := true
  unwrap : Metadata → List Layer := fun _ => []
  direct : outer.type = .direct → supportUDP = true ∧ ∀ m, unwrap m = []

def Proxy.diverts (p : Proxy) (m : Metadata) : Option Layer :=
  (p.outer :: p.unwrap m).find? fun l => l.type = .pass || l.type = .rematch

inductive TunnelMode
  | global | rule | direct
  deriving DecidableEq

structure RoutingSnapshot where
  proxies : String → Option Proxy
  rules : List Rule
  subRules : String → Option (List Rule) := fun _ => none
  mode : TunnelMode := .rule

namespace RoutingSnapshot

def getRules (state : RoutingSnapshot) (m : Metadata) : List Rule := (state.subRules m.specialRules).getD state.rules

def checkPassRule (state : RoutingSnapshot) (m : Metadata) (name : String) : Bool :=
  match state.proxies name with
  | none => false
  | some p => (p.outer :: p.unwrap m).any fun l => l.type = .passRule

end RoutingSnapshot

inductive Verdict
  | selected (l : Layer)
  | rematch (l : Layer)
  | missed

def matchRules (env : Lookups) (state : RoutingSnapshot) (h : Helper) : List Rule → MatchContext → Verdict × MatchContext
  | [], c => (.missed, c)
  | rule :: rules, c =>
    let ((matched, name), c) := rule.matches env h c
    if matched then
      match state.proxies name with
      | none => matchRules env state h rules c
      | some p =>
        match p.diverts c.metadata with
        | some l => if l.type = .pass then matchRules env state h rules c else (.rematch l, c)
        | none =>
          if c.metadata.network = .udp && !p.supportUDP then matchRules env state h rules c else (.selected p.outer, c)
    else matchRules env state h rules c

/-- `matchWithState`, in at most the given number of rounds. The inner option is a nil proxy. -/
def matchWithState (env : Lookups) (state : RoutingSnapshot) (h : Helper) :
    Nat → List String → MatchContext → Option (Option Layer)
  | 0, _, _ => none
  | n + 1, rematchChain, c =>
    match matchRules env state h (state.getRules c.metadata) c with
    | (.selected l, _) => some (some l)
    | (.rematch l, c) =>
      if l.name ∈ rematchChain then some (some l)
      else matchWithState env state h n (rematchChain ++ [l.name]) { c with metadata := l.applyMetadata c.metadata }
    | (.missed, _) => some ((state.proxies "DIRECT").map Proxy.outer)

inductive FindProcessMode
  | always | strict | off
  deriving DecidableEq

/-- `resolveMetadata` after it has looked into the hosts file; `resolved` says whether the host was there. -/
def resolveMetadata (env : Lookups) (findMode : FindProcessMode) (resolved : Bool) (state : RoutingSnapshot) (rounds : Nat)
    (m : Metadata) : Option (Except String (Option Layer)) :=
  if m.specialProxy ≠ "" then
    match state.proxies m.specialProxy with
    | some p => some (.ok (some p.outer))
    | none => some (.error s!"proxy {m.specialProxy} not found")
  else
    let c : MatchContext := ⟨m, resolved, m.type ≠ .inner⟩
    let c := if findMode = .always then c.findProcess env else c
    let h : Helper := ⟨true, findMode = .strict, state.checkPassRule⟩
    match state.mode with
    | .direct => some (.ok ((state.proxies "DIRECT").map Proxy.outer))
    | .global => some (.ok ((state.proxies "GLOBAL").map Proxy.outer))
    | .rule => (matchWithState env state h rounds [] c).map .ok

end AsterCore.Tunnel
