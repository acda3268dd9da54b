import AsterCore.RuleEngine

namespace AsterCore.Tunnel

open List

def RuleType.destinationOnly : RuleType → Bool
  | .domain | .domainSuffix | .domainKeyword | .domainRegex | .domainWildcard | .geosite | .geoip | .ipasn | .ipcidr
  | .ipSuffix => true
  | _ => false

def RuleType.kernelDirectSafe : RuleType → Bool
  | .inName | .inType | .final => true
  | type => type.destinationOnly

def RuleProvider.destinationOnly : RuleProvider → Bool
  | .domain _ | .ipcidr _ => true
  | _ => false

mutual

def Rule.kernelDirectMatchSafe : Rule → Option Bool
  | .logic _ rules _ => some (nestedMatchSafe rules)
  | .subRules _ _ _ => some false
  | .ruleSet provider isSrc _ _ => some (!isSrc && provider.destinationOnly)
  | _ => none

def nestedMatchSafe : List Rule → Bool
  | [] => true
  | rule :: rules => rule.kernelDirectMatchSafe.getD rule.ruleType.destinationOnly && nestedMatchSafe rules

end

def kernelDirectRuleSafe (rule : Rule) : Bool := rule.kernelDirectMatchSafe.getD rule.ruleType.kernelDirectSafe

def unwrapKernelDirectRule : Rule → Rule
  | .wrapper rule _ => unwrapKernelDirectRule rule
  | rule => rule

def Rule.isDisabled : Rule → Bool
  | .wrapper rule disabled => disabled || rule.isDisabled
  | _ => false

def kernelDirectAdapterIsDirect (state : RoutingSnapshot) (name : String) : Bool :=
  match state.proxies name with
  | some p => p.outer.type = .direct
  | none => false

/-- The world of the classifier: its helper is empty, so it never asks. -/
def noLookups : Lookups := ⟨fun _ => none, fun m => ⟨m.uid, m.process, m.processPath⟩⟩

def classifyRules (state : RoutingSnapshot) : List Rule → Bool → MatchContext → Bool
  | [], unsafeProxyRuleBefore, _ => !unsafeProxyRuleBefore
  | wrappedRule :: rules, unsafeProxyRuleBefore, c =>
    let rule := unwrapKernelDirectRule wrappedRule
    if !kernelDirectRuleSafe rule then
      classifyRules state rules (unsafeProxyRuleBefore || !kernelDirectAdapterIsDirect state rule.adapter) c
    else
      let ((matched, name), c) := rule.matches noLookups {} c
      if !matched then classifyRules state rules unsafeProxyRuleBefore c
      else
        match state.proxies name with
        | none => classifyRules state rules unsafeProxyRuleBefore c
        | some p =>
          match p.outer.type with
          | .pass | .passRule => classifyRules state rules unsafeProxyRuleBefore c
          | .direct => !unsafeProxyRuleBefore
          | _ => false

def kernelDirectMetadata (base : Metadata) (host : String) (addr : Addr) : Metadata :=
  { base with host := host, dstIP := addr.unmap, network := .tcp, type := .tun }

def classifyKernelDirect (state : RoutingSnapshot) (base : Metadata) (host : String) (addr : Addr) : Bool :=
  match state.mode with
  | .direct => true
  | .global => false
  | .rule =>
    let m := kernelDirectMetadata base host addr
    if m.specialProxy ≠ "" then kernelDirectAdapterIsDirect state m.specialProxy
    else classifyRules state (state.getRules m) false { metadata := m }

def SameConnection (m m' : Metadata) : Prop :=
  m' = { m with uid := m'.uid, process := m'.process, processPath := m'.processPath }

namespace SameConnection

theorem refl (m : Metadata) : SameConnection m m := rfl

variable {m m' : Metadata}

theorem trans {m'' : Metadata} (hf : SameConnection m m') (hs : SameConnection m' m'') : SameConnection m m'' := by
  unfold SameConnection at *
  rw [hs, hf]

theorem swapSrcDst (hs : SameConnection m m') : SameConnection m.swapSrcDst m'.swapSrcDst := by
  rw [hs]
  rfl

theorem dstIP (hs : SameConnection m m') : m'.dstIP = m.dstIP := by rw [hs]

end SameConnection

theorem findProcess_same (env : Lookups) (c : MatchContext) : SameConnection c.metadata (c.findProcess env).metadata := by
  unfold MatchContext.findProcess
  split
  · rfl
  · rfl

variable {c : MatchContext}

theorem resolveIP_of_valid (env : Lookups) (hv : c.metadata.dstIP.isValid = true) : c.resolveIP env = c := by
  unfold MatchContext.resolveIP
  rw [if_pos]
  rw [hv, Bool.or_true]

def Idle (h : Helper) (c : MatchContext) : Prop := h.resolveIP = true → c.metadata.dstIP.isValid = true

variable {h : Helper}

theorem Idle.of_same {c' : MatchContext} (hi : Idle h c) (hs : SameConnection c.metadata c'.metadata) :
    Idle h c' := fun hg => by rw [hs.dstIP]; exact hi hg

theorem idle_without (h : Helper) (c : MatchContext) : Idle { h with resolveIP := false } c := fun hg => by cases hg

mutual

theorem Rule.matches_same (env : Lookups) : ∀ (rule : Rule) (h : Helper) (c : MatchContext), Idle h c →
    SameConnection c.metadata (rule.matches env h c).2.metadata
  | .host _ _ _, _, _, _ => rfl
  | .address kind isSourceIP noResolveIP test adapter, h, c, idle => by
    unfold Rule.matches
    split
    next given =>
      rw [resolveIP_of_valid env (idle (by simp_all))]
      rfl
    · rfl
  | .inName _ _, _, _, _ | .inType _ _, _, _, _ => rfl
  | .context kind test adapter, h, c, idle => by
    unfold Rule.matches
    split
    · exact findProcess_same env c
    · rfl
  | .final _, _, _, _ => rfl
  | .ruleSet provider isSrc noResolveIP adapter, h, c, idle => by
    unfold Rule.matches
    split
    · have hi := RuleProvider.matches_same env provider _ { c with metadata := c.metadata.swapSrcDst } (idle_without h _)
      exact hi.swapSrcDst
    · refine RuleProvider.matches_same env provider _ c ?_
      split
      · exact idle_without h c
      · exact idle
  | .logic .and rules adapter, h, c, idle => matchesAll_same env rules h c idle
  | .logic .or rules adapter, h, c, idle | .logic .not rules adapter, h, c, idle => matchesAny_same env rules h c idle
  | .subRules condition name rules, h, c, idle => by
    have first := Rule.matches_same env condition h c idle
    unfold Rule.matches
    simp only
    split
    · exact first.trans (matchSubRules_same env rules h _ (idle.of_same first))
    · exact first
  | .wrapper rule disabled, h, c, idle => by
    unfold Rule.matches
    split
    · rfl
    · exact Rule.matches_same env rule h c idle

theorem RuleProvider.matches_same (env : Lookups) : ∀ (provider : RuleProvider) (h : Helper) (c : MatchContext), Idle h c →
    SameConnection c.metadata (provider.matches env h c).2.metadata
  | .missing, _, _, _ | .domain _, _, _, _ => rfl
  | .ipcidr isContain, h, c, idle => by
    unfold RuleProvider.matches
    split
    next given =>
      rw [resolveIP_of_valid env (idle (by simp_all))]
      rfl
    · rfl
  | .classical rules has, h, c, idle => matchesAny_same env rules h c idle

theorem matchesAny_same (env : Lookups) : ∀ (rules : List Rule) (h : Helper) (c : MatchContext), Idle h c →
    SameConnection c.metadata (matchesAny env rules h c).2.metadata
  | [], _, _, _ => rfl
  | rule :: rules, h, c, idle => by
    have first := Rule.matches_same env rule h c idle
    unfold matchesAny
    simp only
    split
    · exact first
    · exact first.trans (matchesAny_same env rules h _ (idle.of_same first))

theorem matchesAll_same (env : Lookups) : ∀ (rules : List Rule) (h : Helper) (c : MatchContext), Idle h c →
    SameConnection c.metadata (matchesAll env rules h c).2.metadata
  | [], _, _, _ => rfl
  | rule :: rules, h, c, idle => by
    have first := Rule.matches_same env rule h c idle
    unfold matchesAll
    simp only
    split
    · exact first.trans (matchesAll_same env rules h _ (idle.of_same first))
    · exact first

theorem matchSubRules_same (env : Lookups) : ∀ (rules : List Rule) (h : Helper) (c : MatchContext), Idle h c →
    SameConnection c.metadata (matchSubRules env rules h c).2.metadata
  | [], _, _, _ => rfl
  | rule :: rules, h, c, idle => by
    have first := Rule.matches_same env rule h c idle
    unfold matchSubRules
    simp only
    split
    · have again := first.trans (Rule.subRulesAgain_same env rule (rule.matches env h c).1.2 h _ (idle.of_same first))
      split
      · exact again.trans (matchSubRules_same env rules h _ (idle.of_same again))
      · exact again
    · exact first.trans (matchSubRules_same env rules h _ (idle.of_same first))

theorem Rule.subRulesAgain_same (env : Lookups) : ∀ (rule : Rule) (name : String) (h : Helper) (c : MatchContext), Idle h c →
    SameConnection c.metadata (rule.subRulesAgain env name h c).2.metadata
  | .subRules _ _ rules, _, h, c, idle => matchSubRules_same env rules h c idle
  | .wrapper rule _, name, h, c, idle => Rule.subRulesAgain_same env rule name h c idle
  | .host _ _ _, _, _, _, _ | .address _ _ _ _ _, _, _, _, _ | .inName _ _, _, _, _, _ | .inType _ _, _, _, _, _
  | .context _ _ _, _, _, _, _ | .final _, _, _, _, _ | .ruleSet _ _ _ _, _, _, _, _ | .logic _ _ _, _, _, _, _ => rfl

end

structure SameTarget (m m' : Metadata) : Prop where
  host : m'.ruleHost = m.ruleHost
  dstIP : m'.dstIP = m.dstIP

theorem address_matches (env : Lookups) (kind : AddressKind) (noResolveIP : Bool) (test : Addr → Bool) (adapter : String)
    (hi : Idle h c) : (Rule.address kind false noResolveIP test adapter).matches env h c =
      ((c.metadata.dstIP.isValid && test c.metadata.dstIP, adapter), c) := by
  unfold Rule.matches
  split
  next given =>
    rw [resolveIP_of_valid env (hi (by simp_all))]
    rfl
  · rfl

theorem ipcidr_matches (env : Lookups) (isContain : Addr → Bool) (hi : Idle h c) :
    (RuleProvider.ipcidr isContain).matches env h c = (isContain c.metadata.dstIP, c) := by
  unfold RuleProvider.matches
  split
  next given => rw [resolveIP_of_valid env (hi (by simp_all))]
  · rfl

theorem address_destination {kind : AddressKind} {isSourceIP : Bool} (hs : (kind.ruleType isSourceIP).destinationOnly = true) :
    isSourceIP = false := by
  cases isSourceIP with
  | false => rfl
  | true => cases kind <;> cases hs

structure At (host : String) (ip : Addr) (h : Helper) (c : MatchContext) : Prop where
  idle : Idle h c
  host : c.metadata.ruleHost = host
  dstIP : c.metadata.dstIP = ip

def Fixed (host : String) (ip : Addr) (rule : Rule) : Prop :=
  ∃ answer, ∀ (env : Lookups) {h : Helper} {c : MatchContext}, At host ip h c → rule.matches env h c = (answer, c)

section Safe

variable {host : String} {ip : Addr}

theorem provider_fixed {provider : RuleProvider} (hs : provider.destinationOnly = true) :
    ∃ answer, ∀ (env : Lookups) {h : Helper} {c : MatchContext}, At host ip h c → provider.matches env h c = (answer, c) := by
  cases provider with
  | missing | classical => cases hs
  | domain has =>
    refine ⟨has host, fun env h c at' => ?_⟩
    rw [← at'.host]
    rfl
  | ipcidr isContain =>
    refine ⟨isContain ip, fun env h c at' => ?_⟩
    rw [ipcidr_matches env isContain at'.idle, at'.dstIP]

theorem ruleSet_fixed {provider : RuleProvider} (hs : provider.destinationOnly = true) (noResolveIP : Bool) (adapter : String) :
    Fixed host ip (.ruleSet provider false noResolveIP adapter) := by
  obtain ⟨answer, hf⟩ := @provider_fixed host ip provider hs
  refine ⟨(answer, adapter), fun env h c at' => ?_⟩
  have hq : Idle (if noResolveIP then { h with resolveIP := false } else h) c := by
    split
    · exact idle_without h c
    · exact at'.idle
  simp only [Rule.matches, Bool.false_eq_true, if_false]
  rw [hf env ⟨hq, at'.host, at'.dstIP⟩]

theorem destinationOnly_fixed : ∀ {rule : Rule}, rule.ruleType.destinationOnly = true → Fixed host ip rule
  | .host kind test adapter, _ => by
    refine ⟨(test host, adapter), fun env h c at' => ?_⟩
    rw [← at'.host]
    rfl
  | .address kind isSourceIP noResolveIP test adapter, hs => by
    cases address_destination hs
    refine ⟨(ip.isValid && test ip, adapter), fun env h c at' => ?_⟩
    rw [address_matches env kind noResolveIP test adapter at'.idle, at'.dstIP]
  | .inName .., hs | .inType .., hs | .final _, hs | .ruleSet .., hs | .subRules .., hs => by cases hs
  | .context kind _ _, hs | .logic kind _ _, hs => by cases kind <;> cases hs
  | .wrapper rule disabled, hs => by
    obtain ⟨answer, hf⟩ := @destinationOnly_fixed rule hs
    cases disabled with
    | true => exact ⟨(false, ""), fun _ _ _ _ => rfl⟩
    | false => exact ⟨answer, hf⟩

mutual

theorem nested_fixed : ∀ {rule : Rule}, rule.kernelDirectMatchSafe.getD rule.ruleType.destinationOnly = true → Fixed host ip rule
  | .logic kind rules adapter, hs => by
    obtain ⟨all, any, hf⟩ := @nestedAll_fixed rules hs
    cases kind with
    | and => exact ⟨(all, adapter), fun env h c at' => by rw [Rule.matches, (hf env at').1]⟩
    | or => exact ⟨(any, adapter), fun env h c at' => by rw [Rule.matches, (hf env at').2]⟩
    | not => exact ⟨(!any, adapter), fun env h c at' => by rw [Rule.matches, (hf env at').2]⟩
  | .ruleSet provider isSrc noResolveIP adapter, hs => by
    cases isSrc with
    | true => cases hs
    | false => exact ruleSet_fixed hs noResolveIP adapter
  | .subRules .., hs => by cases hs
  | .host .., hs | .address .., hs | .inName .., hs | .inType .., hs | .context .., hs | .final _, hs
  | .wrapper .., hs => destinationOnly_fixed hs

theorem nestedAll_fixed : ∀ {rules : List Rule}, nestedMatchSafe rules = true →
    ∃ all any, ∀ (env : Lookups) {h : Helper} {c : MatchContext}, At host ip h c →
      matchesAll env rules h c = (all, c) ∧ matchesAny env rules h c = (any, c)
  | [], _ => ⟨true, false, fun _ _ _ _ => ⟨rfl, rfl⟩⟩
  | rule :: rules, hs => by
    obtain ⟨hfi, hr⟩ := Bool.and_eq_true_iff.mp hs
    obtain ⟨answer, hf⟩ := nested_fixed hfi
    obtain ⟨all, any, hfr⟩ := nestedAll_fixed hr
    refine ⟨if answer.1 then all else false, if answer.1 then true else any, fun env h c at' => ?_⟩
    obtain ⟨hre, hra⟩ := hfr env at'
    simp only [matchesAll, matchesAny, hf env at', hre, hra]
    split <;> exact ⟨rfl, rfl⟩

end

theorem safe_matches (env : Lookups) {h : Helper} {c : MatchContext} {rule : Rule}
    (hb : ∀ inner disabled, rule ≠ .wrapper inner disabled) (hs : kernelDirectRuleSafe rule = true)
    (hi : Idle h c) (env' : Lookups) {h' : Helper} {c' : MatchContext} (hi' : Idle h' c')
    (same : SameTarget c.metadata c'.metadata) (inName : c'.metadata.inName = c.metadata.inName)
    (inType : ∀ types adapter, rule = .inType types adapter → types.contains c'.metadata.type = types.contains c.metadata.type) :
    rule.matches env' h' c' = ((rule.matches env h c).1, c') := by
  have of_fixed : Fixed c.metadata.ruleHost c.metadata.dstIP rule → rule.matches env' h' c' = ((rule.matches env h c).1, c') := by
    rintro ⟨_, hf⟩
    rw [hf env' ⟨hi', same.host, same.dstIP⟩, hf env ⟨hi, rfl, rfl⟩]
  cases rule with
  | host kind => exact of_fixed (destinationOnly_fixed (by cases kind <;> rfl))
  | address kind isSourceIP =>
    refine of_fixed (destinationOnly_fixed ?_)
    cases kind <;> cases isSourceIP <;> first | rfl | cases hs
  | inName =>
    unfold Rule.matches
    rw [inName]
  | inType types adapter =>
    unfold Rule.matches
    rw [inType types adapter rfl]
  | context kind => cases kind <;> cases hs
  | final => rfl
  | ruleSet | logic => exact of_fixed (nested_fixed hs)
  | subRules => cases hs
  | wrapper inner disabled => exact absurd rfl (hb inner disabled)

end Safe

theorem unwrap_bare (rule : Rule) : ∀ inner disabled, unwrapKernelDirectRule rule ≠ .wrapper inner disabled := by
  intro inner disabled
  fun_induction unwrapKernelDirectRule rule with
  | case1 _ _ ih => exact ih
  | case2 _ hb => exact hb inner disabled

theorem matches_unwrap (env : Lookups) (h : Helper) (c : MatchContext) (rule : Rule) : rule.matches env h c =
    if rule.isDisabled then ((false, ""), c) else (unwrapKernelDirectRule rule).matches env h c := by
  fun_induction unwrapKernelDirectRule rule with
  | case1 _ disabled ih =>
    cases disabled with
    | true => rfl
    | false => exact ih
  | case2 rule hb =>
    rw [if_neg]
    cases rule <;> first | exact Bool.false_ne_true | exact (hb _ _ rfl).elim

variable {rule : Rule}

theorem matches_adapter (env : Lookups) (h : Helper) (c : MatchContext)
    (hb : ∀ inner disabled, rule ≠ .wrapper inner disabled) (hp : rule.ruleType ≠ .subRules) :
    (rule.matches env h c).1.2 = rule.adapter := by
  cases rule with
  | ruleSet _ isSrc => cases isSrc <;> rfl
  | logic kind => cases kind <;> rfl
  | subRules => exact absurd rfl hp
  | wrapper inner disabled => exact absurd rfl (hb inner disabled)
  | _ => rfl

def judged (state : RoutingSnapshot) (c : MatchContext) (wrappedRule : Rule) : Option AdapterType :=
  let rule := unwrapKernelDirectRule wrappedRule
  let result := (rule.matches noLookups {} c).1
  if kernelDirectRuleSafe rule && result.1 then (state.proxies result.2).map fun p => p.outer.type else none

def decides (state : RoutingSnapshot) (c : MatchContext) (rule : Rule) : Bool :=
  match judged state c rule with
  | none | some .pass | some .passRule => false
  | some _ => true

def reached (state : RoutingSnapshot) (c : MatchContext) : List Rule → List Rule
  | [] => []
  | rule :: rules => if decides state c rule then [rule] else rule :: reached state c rules

/-- Where the classifier treats a rule as the engine does, for connections of an inbound type: a disabled rule does not make
it answer DIRECT, an enabled one does not name a PASS-RULE adapter, is no SUB-RULE rule called as a DIRECT adapter is, and
tells the type from TUN in no IN-TYPE test. -/
structure Agrees (state : RoutingSnapshot) (type : InboundType) (c : MatchContext) (rule : Rule) : Prop where
  disabled : rule.isDisabled = true → judged state c rule ≠ some .direct
  passRule : rule.isDisabled = false → judged state c rule ≠ some .passRule
  subRules : rule.isDisabled = false → rule.ruleType = .subRules → kernelDirectAdapterIsDirect state rule.adapter = false
  inType : rule.isDisabled = false → ∀ types adapter, unwrapKernelDirectRule rule = .inType types adapter →
    types.contains type = types.contains .tun

theorem unwrap_ruleType (rule : Rule) : (unwrapKernelDirectRule rule).ruleType = rule.ruleType := by
  fun_induction unwrapKernelDirectRule rule with
  | case1 _ _ ih => exact ih
  | case2 => rfl

theorem unwrap_adapter (rule : Rule) : (unwrapKernelDirectRule rule).adapter = rule.adapter := by
  fun_induction unwrapKernelDirectRule rule with
  | case1 _ _ ih => exact ih
  | case2 => rfl

theorem idle_empty (c : MatchContext) : Idle {} c := fun hg => by cases hg

theorem classifyRules_cons (state : RoutingSnapshot) (rule : Rule) (rules : List Rule) (unsafeBefore : Bool) (c : MatchContext) :
    classifyRules state (rule :: rules) unsafeBefore c =
      if kernelDirectRuleSafe (unwrapKernelDirectRule rule) then
        match judged state c rule with
        | none | some .pass | some .passRule => classifyRules state rules unsafeBefore c
        | some .direct => !unsafeBefore
        | some _ => false
      else classifyRules state rules (unsafeBefore || !kernelDirectAdapterIsDirect state rule.adapter) c := by
  rw [classifyRules, judged, unwrap_adapter]
  by_cases hs : kernelDirectRuleSafe (unwrapKernelDirectRule rule) = true
  · have same := safe_matches noLookups (unwrap_bare rule) hs (idle_empty c) noLookups (idle_empty c) ⟨rfl, rfl⟩ rfl
      fun _ _ _ => rfl
    generalize (unwrapKernelDirectRule rule).matches noLookups {} c = r at same ⊢
    obtain ⟨⟨matched, name⟩, after⟩ := r
    cases same
    simp only [hs, Bool.not_true, Bool.false_eq_true]
    cases matched with
    | false => rfl
    | true =>
      cases state.proxies name with
      | none => rfl
      | some p =>
        simp only [Option.map_some]
        cases p.outer.type <;> rfl
  · simp only [hs, Bool.not_false, if_true, if_false, Bool.false_eq_true]

theorem classifyRules_unsafe (state : RoutingSnapshot) (rules : List Rule) (c : MatchContext) :
    classifyRules state rules true c = false := by
  induction rules with
  | nil => rfl
  | cons rule rules ih =>
    rw [classifyRules_cons]
    split
    · split <;> first | exact ih | rfl
    · rw [Bool.true_or]
      exact ih

variable {state : RoutingSnapshot}

theorem isDirect_proxy {name : String} (hd : kernelDirectAdapterIsDirect state name = true) :
    ∃ p, state.proxies name = some p ∧ p.outer.type = .direct := by
  unfold kernelDirectAdapterIsDirect at hd
  split at hd
  next p hh => exact ⟨p, hh, of_decide_eq_true hd⟩
  · cases hd

section Engine

variable (env : Lookups) {state : RoutingSnapshot} (h : Helper) {rule : Rule} (rules : List Rule) {c : MatchContext}

variable {after : MatchContext} {name : String}

theorem matchRules_miss (hm : rule.matches env h c = ((false, name), after)) :
    matchRules env state h (rule :: rules) c = matchRules env state h rules after := by
  rw [matchRules, hm]
  rfl

section

variable (matched : rule.matches env h c = ((true, name), after))

include matched

theorem matchRules_absent (ha : state.proxies name = none) :
    matchRules env state h (rule :: rules) c = matchRules env state h rules after := by
  rw [matchRules, matched]
  simp only [if_true, ha]

theorem matchRules_pass {p : Proxy} (hf : state.proxies name = some p) (hp : p.outer.type = .pass) :
    matchRules env state h (rule :: rules) c = matchRules env state h rules after := by
  have hd : p.diverts after.metadata = some p.outer := by simp [Proxy.diverts, hp]
  rw [matchRules, matched]
  simp only [if_true, hf, hd, hp]

theorem matchRules_direct {p : Proxy} (hf : state.proxies name = some p) (hd : p.outer.type = .direct) :
    matchRules env state h (rule :: rules) c = (.selected p.outer, after) := by
  obtain ⟨udp, ha⟩ := p.direct hd
  have hdi : p.diverts after.metadata = none := by simp [Proxy.diverts, ha, hd]
  rw [matchRules, matched]
  simp only [if_true, hf, hdi, udp, Bool.not_true, Bool.and_false, Bool.false_eq_true, if_false]

end

end Engine

/-- The connections the classifier's answer is about: those the engine's context shares with the classifier's but for what no
rule that the classifier evaluates can see. -/
structure Covers (c₀ c : MatchContext) : Prop where
  target : SameTarget c₀.metadata c.metadata
  inName : c.metadata.inName = c₀.metadata.inName
  tun : c₀.metadata.type = .tun

variable {c₀ : MatchContext}

theorem Covers.of_same {after : MatchContext} (hc : Covers c₀ c) (hs : SameConnection c.metadata after.metadata) :
    Covers c₀ after ∧ after.metadata.type = c.metadata.type := by
  have hh : after.metadata.ruleHost = c.metadata.ruleHost := by rw [hs]; rfl
  have hin : after.metadata.inName = c.metadata.inName := by rw [hs]
  refine ⟨⟨⟨hh.trans hc.target.host, hs.dstIP.trans hc.target.dstIP⟩, hin.trans hc.inName, hc.tun⟩, ?_⟩
  rw [hs]

theorem Covers.matches (hc : Covers c₀ c)
    (ha : Agrees state c.metadata.type c₀ rule) (hs : kernelDirectRuleSafe (unwrapKernelDirectRule rule) = true)
    (he : rule.isDisabled = false) (env : Lookups) (hi : Idle h c) :
    rule.matches env h c = (((unwrapKernelDirectRule rule).matches noLookups {} c₀).1, c) := by
  rw [matches_unwrap, he]
  refine safe_matches noLookups (unwrap_bare rule) hs (idle_empty c₀) env hi hc.target hc.inName ?_
  intro types adapter hh
  rw [hc.tun]
  exact ha.inType he types adapter hh

theorem judged_some {type : AdapterType}
    (eq : judged state c rule = some type) : ((unwrapKernelDirectRule rule).matches noLookups {} c).1.1 = true ∧
      ∃ p, state.proxies ((unwrapKernelDirectRule rule).matches noLookups {} c).1.2 = some p ∧ p.outer.type = type := by
  unfold judged at eq
  simp only at eq
  split at eq
  next hb =>
    obtain ⟨p, hf, is⟩ := Option.map_eq_some_iff.mp eq
    exact ⟨(Bool.and_eq_true_iff.mp hb).2, p, hf, is⟩
  · cases eq

theorem judged_none (eq : judged state c rule = none) (hs : kernelDirectRuleSafe (unwrapKernelDirectRule rule) = true)
    (hm : ((unwrapKernelDirectRule rule).matches noLookups {} c).1.1 = true) :
    state.proxies ((unwrapKernelDirectRule rule).matches noLookups {} c).1.2 = none := by
  unfold judged at eq
  simp only [hs, hm, Bool.and_self] at eq
  exact Option.map_eq_none_iff.mp eq

section Step

variable (env : Lookups) {state : RoutingSnapshot} {h : Helper} {c₀ c : MatchContext} {rule : Rule} (rules : List Rule)

def Passes (env : Lookups) (state : RoutingSnapshot) (h : Helper) (rule : Rule) (rules : List Rule) (c : MatchContext) : Prop :=
  ∃ after, SameConnection c.metadata after.metadata ∧
    matchRules env state h (rule :: rules) c = matchRules env state h rules after

def SelectsDirect (env : Lookups) (state : RoutingSnapshot) (h : Helper) (rules : List Rule) (c : MatchContext) : Prop :=
  ∃ l after, matchRules env state h rules c = (.selected l, after) ∧ l.type = .direct

theorem passes_of_disabled (hd : rule.isDisabled = true) : Passes env state h rule rules c := by
  have hs : rule.matches env h c = ((false, ""), c) := by
    rw [matches_unwrap, hd]
    rfl
  exact ⟨c, .refl _, matchRules_miss env h rules hs⟩

theorem passes_of_undecided (hc : Covers c₀ c) (ha : Agrees state c.metadata.type c₀ rule)
    (hs : kernelDirectRuleSafe (unwrapKernelDirectRule rule) = true) (hi : Idle h c)
    (hu : decides state c₀ rule = false) : Passes env state h rule rules c := by
  cases hd : rule.isDisabled with
  | true => exact passes_of_disabled env rules hd
  | false =>
    have he := hc.matches ha hs hd env hi
    refine ⟨c, .refl _, ?_⟩
    cases hm : ((unwrapKernelDirectRule rule).matches noLookups {} c₀).1.1 with
    | false =>
      have hmi : rule.matches env h c = ((false, ((unwrapKernelDirectRule rule).matches noLookups {} c₀).1.2), c) :=
        he.trans (Prod.ext (Prod.ext hm rfl) rfl)
      exact matchRules_miss env h rules hmi
    | true =>
      have ht : rule.matches env h c = ((true, ((unwrapKernelDirectRule rule).matches noLookups {} c₀).1.2), c) :=
        he.trans (Prod.ext (Prod.ext hm rfl) rfl)
      cases eq : judged state c₀ rule with
      | none => exact matchRules_absent env h rules ht (judged_none eq hs hm)
      | some type =>
        obtain ⟨_, p, hf, is⟩ := judged_some eq
        have hp : type = .pass := by
          have hh := ha.passRule hd
          unfold decides at hu
          rw [eq] at hu hh
          cases type <;> first | rfl | exact absurd rfl hh | cases hu
        exact matchRules_pass env h rules ht hf (is.trans hp)

theorem selects_of_judged (hc : Covers c₀ c) (ha : Agrees state c.metadata.type c₀ rule)
    (hs : kernelDirectRuleSafe (unwrapKernelDirectRule rule) = true) (hi : Idle h c)
    (hd : judged state c₀ rule = some .direct) : SelectsDirect env state h (rule :: rules) c := by
  have he := Bool.eq_false_iff.mpr fun hdi => ha.disabled hdi hd
  obtain ⟨hm, p, hf, is⟩ := judged_some hd
  have ht : rule.matches env h c = ((true, ((unwrapKernelDirectRule rule).matches noLookups {} c₀).1.2), c) :=
    (hc.matches ha hs he env hi).trans (Prod.ext (Prod.ext hm rfl) rfl)
  exact ⟨p.outer, c, matchRules_direct env h rules ht hf is, is⟩

theorem selects_or_passes (ha : Agrees state c.metadata.type c₀ rule) (hi : Idle h c)
    (hdi : kernelDirectAdapterIsDirect state rule.adapter = true) :
    SelectsDirect env state h (rule :: rules) c ∨ Passes env state h rule rules c := by
  cases hd : rule.isDisabled with
  | true => exact .inr (passes_of_disabled env rules hd)
  | false =>
    have hp : (unwrapKernelDirectRule rule).ruleType ≠ .subRules := by
      rw [unwrap_ruleType]
      intro sub
      rw [ha.subRules hd sub] at hdi
      cases hdi
    have hn : (rule.matches env h c).1.2 = rule.adapter := by
      rw [matches_unwrap, hd, ← unwrap_adapter rule]
      exact matches_adapter env h c (unwrap_bare rule) hp
    have hs := rule.matches_same env h c hi
    cases hm : (rule.matches env h c).1.1 with
    | false => exact .inr ⟨_, hs, matchRules_miss env h rules (Prod.ext (Prod.ext hm rfl) rfl)⟩
    | true =>
      obtain ⟨p, hf, is⟩ := isDirect_proxy hdi
      have ht : rule.matches env h c = ((true, rule.adapter), (rule.matches env h c).2) :=
        Prod.ext (Prod.ext hm hn) rfl
      exact .inl ⟨p.outer, _, matchRules_direct env h rules ht hf is, is⟩

theorem step_of_classified (hco : Covers c₀ c) (ha : Agrees state c.metadata.type c₀ rule) (hi : Idle h c)
    (hc : classifyRules state (rule :: rules) false c₀ = true) :
    SelectsDirect env state h (rule :: rules) c ∨
      Passes env state h rule rules c ∧ decides state c₀ rule = false ∧ classifyRules state rules false c₀ = true := by
  rw [classifyRules_cons] at hc
  split at hc
  next hs =>
    cases eq : judged state c₀ rule with
    | none =>
      have hu : decides state c₀ rule = false := by rw [decides, eq]
      rw [eq] at hc
      exact .inr ⟨passes_of_undecided env rules hco ha hs hi hu, hu, hc⟩
    | some type =>
      rw [eq] at hc
      by_cases hd : type = .direct
      · rw [hd] at eq
        exact .inl (selects_of_judged env rules hco ha hs hi eq)
      · have hu : decides state c₀ rule = false := by
          rw [decides, eq]
          cases type <;> first | rfl | exact absurd rfl hd | cases hc
        refine .inr ⟨passes_of_undecided env rules hco ha hs hi hu, hu, ?_⟩
        cases type <;> first | exact hc | exact absurd rfl hd | cases hc
  next hns =>
    have hd : kernelDirectAdapterIsDirect state rule.adapter = true := by
      by_contra ho
      rw [Bool.eq_false_iff.mpr ho, Bool.not_false, Bool.or_true, classifyRules_unsafe] at hc
      cases hc
    rw [hd] at hc
    refine (selects_or_passes env rules ha hi hd).imp_right fun hp => ⟨hp, ?_, hc⟩
    rw [decides, judged]
    simp only [hns, Bool.false_and, Bool.false_eq_true, if_false]

end Step

theorem matchRules_of_classified (env : Lookups) (rules : List Rule) :
    ∀ {c : MatchContext}, Idle h c → Covers c₀ c →
      (∀ rule ∈ reached state c₀ rules, Agrees state c.metadata.type c₀ rule) → classifyRules state rules false c₀ = true →
      SelectsDirect env state h rules c ∨
        (∃ after, matchRules env state h rules c = (.missed, after)) ∧ ∀ rule ∈ rules, decides state c₀ rule = false := by
  induction rules with
  | nil => exact fun _ _ _ _ => .inr ⟨⟨_, rfl⟩, fun _ mem => absurd mem not_mem_nil⟩
  | cons rule rules ih =>
    intro c hi hco ha hc
    have hh : Agrees state c.metadata.type c₀ rule := by
      refine ha rule ?_
      unfold reached
      split <;> exact mem_cons_self
    obtain hs | ⟨⟨after, same, step⟩, hu, hr⟩ := step_of_classified env rules hco hh hi hc
    · exact .inl hs
    · obtain ⟨hc', ht⟩ := hco.of_same same
      have har : ∀ r ∈ reached state c₀ rules, Agrees state after.metadata.type c₀ r := by
        intro r mem
        rw [ht]
        refine ha r ?_
        rw [reached, hu]
        exact mem_cons_of_mem rule mem
      obtain ⟨l, last, hse, is⟩ | ⟨⟨last, hm⟩, ho⟩ := ih (hi.of_same same) hc' har hr
      · exact .inl ⟨l, last, step.trans hse, is⟩
      · exact .inr ⟨⟨last, step.trans hm⟩, forall_mem_cons.mpr ⟨hu, ho⟩⟩

/-- The flows an answer of the classifier is about: those of the same inbound to the same host and address. Their source,
ports, process, user, DSCP and network are their own. -/
structure Flow (base : Metadata) (host : String) (addr : Addr) (m : Metadata) : Prop where
  inName : m.inName = base.inName
  type : m.type = base.type
  specialRules : m.specialRules = base.specialRules
  specialProxy : m.specialProxy = base.specialProxy
  host : m.ruleHost = (kernelDirectMetadata base host addr).ruleHost
  dstIP : m.dstIP = addr.unmap

structure Clear (state : RoutingSnapshot) (base : Metadata) (host : String) (addr : Addr) : Prop where
  direct : state.mode = .direct →
    kernelDirectAdapterIsDirect state (if base.specialProxy = "" then "DIRECT" else base.specialProxy) = true
  address : state.mode = .rule → base.specialProxy = "" → addr.isValid = true
  rules : state.mode = .rule → base.specialProxy = "" →
    ∀ rule ∈ reached state ⟨kernelDirectMetadata base host addr, false, false⟩ (state.getRules base),
      Agrees state base.type ⟨kernelDirectMetadata base host addr, false, false⟩ rule
  fallback : state.mode = .rule → base.specialProxy = "" →
    (∀ rule ∈ state.getRules base, decides state ⟨kernelDirectMetadata base host addr, false, false⟩ rule = false) →
    kernelDirectAdapterIsDirect state "DIRECT" = true

theorem unmap_isValid (addr : Addr) : addr.unmap.isValid = addr.isValid := by
  cases addr with
  | invalid | v4 bits => rfl
  | v6 =>
    simp only [Addr.unmap]
    split <;> rfl

theorem matchWithState_direct (env : Lookups) {base : Metadata} {host : String} {addr : Addr}
    (flow : Flow base host addr c.metadata) (hcl : Clear state base host addr) (mode : state.mode = .rule)
    (hp : base.specialProxy = "") (hc : classifyKernelDirect state base host addr = true) (rounds : Nat) :
    ∃ l, matchWithState env state h (rounds + 1) [] c = some (some l) ∧ l.type = .direct := by
  have hp' : (kernelDirectMetadata base host addr).specialProxy = "" := hp
  have hl : state.getRules c.metadata = state.getRules base := by
    unfold RoutingSnapshot.getRules
    rw [flow.specialRules]
  have hw : classifyRules state (state.getRules base) false ⟨kernelDirectMetadata base host addr, false, false⟩ = true := by
    unfold classifyKernelDirect at hc
    rw [mode] at hc
    simp only [hp', ne_eq, not_true] at hc
    exact hc
  have hi : Idle h c := by
    intro _
    rw [flow.dstIP, unmap_isValid]
    exact hcl.address mode hp
  have hco : Covers ⟨kernelDirectMetadata base host addr, false, false⟩ c := ⟨⟨flow.host, flow.dstIP⟩, flow.inName, rfl⟩
  have ha := hcl.rules mode hp
  rw [← flow.type] at ha
  rw [matchWithState, hl]
  obtain ⟨l, after, hs, is⟩ | ⟨⟨after, hm⟩, hn⟩ := matchRules_of_classified env _ hi hco ha hw
  · exact ⟨l, by rw [hs], is⟩
  · obtain ⟨p, hf, is⟩ := isDirect_proxy (hcl.fallback mode hp hn)
    exact ⟨p.outer, by rw [hm, hf]; rfl, is⟩

/-- Where the condition holds, every flow that the classifier's answer DIRECT is about is routed to an adapter of type DIRECT. -/
theorem classifyKernelDirect_sound (env : Lookups) (findMode : FindProcessMode) (resolved : Bool) (state : RoutingSnapshot)
    (base : Metadata) (host : String) (addr : Addr) (clear : Clear state base host addr)
    (classified : classifyKernelDirect state base host addr = true) (m : Metadata) (flow : Flow base host addr m) (rounds : Nat) :
    ∃ l, resolveMetadata env findMode resolved state (rounds + 1) m = some (.ok (some l)) ∧ l.type = .direct := by
  have hn : ∀ {name : String}, kernelDirectAdapterIsDirect state name = true →
      ∃ l, (state.proxies name).map Proxy.outer = some l ∧ l.type = .direct := by
    intro name direct
    obtain ⟨p, hf, is⟩ := isDirect_proxy direct
    exact ⟨p.outer, by rw [hf]; rfl, is⟩
  unfold resolveMetadata
  by_cases hp : base.specialProxy = ""
  · rw [if_neg (by rw [flow.specialProxy]; exact not_not_intro hp)]
    cases hm : state.mode with
    | global =>
      unfold classifyKernelDirect at classified
      rw [hm] at classified
      cases classified
    | direct =>
      have direct := clear.direct hm
      rw [if_pos hp] at direct
      obtain ⟨l, hf, is⟩ := hn direct
      exact ⟨l, by simp only [hf], is⟩
    | rule =>
      have hst : ∀ {c : MatchContext}, SameConnection m c.metadata → Flow base host addr c.metadata := by
        intro c same
        rw [same]
        exact ⟨flow.inName, flow.type, flow.specialRules, flow.specialProxy, flow.host, flow.dstIP⟩
      have hf : ∀ {h : Helper} {c : MatchContext}, SameConnection m c.metadata →
          ∃ l, (matchWithState env state h (rounds + 1) [] c).map Except.ok = some (.ok (some l) : Except String _) ∧
            l.type = .direct := by
        intro h c same
        obtain ⟨l, hs, is⟩ := matchWithState_direct env (hst same) clear hm hp classified rounds
        exact ⟨l, by rw [hs]; rfl, is⟩
      refine hf ?_
      split
      · exact findProcess_same env _
      · rfl
  · rw [if_pos (by rw [flow.specialProxy]; exact hp), flow.specialProxy]
    have direct : kernelDirectAdapterIsDirect state base.specialProxy = true := by
      cases hm : state.mode with
      | global =>
        unfold classifyKernelDirect at classified
        rw [hm] at classified
        cases classified
      | direct =>
        have direct := clear.direct hm
        rwa [if_neg hp] at direct
      | rule =>
        have hp' : (kernelDirectMetadata base host addr).specialProxy ≠ "" := hp
        unfold classifyKernelDirect at classified
        rw [hm] at classified
        simp only [ne_eq, hp', not_false_eq_true] at classified
        exact classified
    obtain ⟨p, hf, is⟩ := isDirect_proxy direct
    exact ⟨p.outer, by rw [hf], is⟩

def sampleSnapshot (rules : List Rule) : RoutingSnapshot where
  proxies := fun name =>
    if name = "DIRECT" then some { outer := ⟨"DIRECT", .direct, none, none⟩, direct := fun _ => ⟨rfl, fun _ => rfl⟩ }
    else if name = "PROXY" then some { outer := ⟨"PROXY", .vless, none, none⟩, direct := fun is => by cases is }
    else none
  rules := rules

def sampleRule : Rule := .host .domain (fun host => host = "a.example") "DIRECT"

def sampleFlow : Metadata :=
  { network := .udp, host := "a.example", dstIP := .v4 0x01010101, srcIP := .v4 0x0a000001, srcPort := 4000, dstPort := 443 }

def sampleLookups : Lookups := ⟨fun _ => none, fun _ => ⟨1000, "curl", "/usr/bin/curl"⟩⟩

theorem classifyKernelDirect_sound_sample :
    let snapshot := sampleSnapshot [.wrapper sampleRule false, .wrapper (.final "PROXY") false]
    ∃ l, resolveMetadata sampleLookups .strict false snapshot 1 sampleFlow = some (.ok (some l)) ∧ l.type = .direct := by
  refine classifyKernelDirect_sound sampleLookups .strict false _ {} "a.example" (.v4 0x01010101) ⟨?_, fun _ _ => rfl, ?_, ?_⟩ ?_
    sampleFlow ⟨rfl, rfl, rfl, rfl, rfl, rfl⟩ 0
  · intro hm
    cases hm
  · intro _ _ rule mem
    have hf := mem_singleton.mp mem
    subst hf
    refine ⟨nofun, fun _ => ?_, nofun, nofun⟩
    decide
  · intro _ _ hn
    have hd := hn (.wrapper sampleRule false) mem_cons_self
    cases hd
  · rfl

/-- A disabled rule in front of a proxy rule makes the classifier answer DIRECT for a flow that the engine sends to the proxy. -/
theorem classifyKernelDirect_disabled :
    let snapshot := sampleSnapshot [.wrapper sampleRule true, .wrapper (.final "PROXY") false]
    classifyKernelDirect snapshot {} "a.example" (.v4 0x01010101) = true ∧
      Flow {} "a.example" (.v4 0x01010101) sampleFlow ∧
      resolveMetadata sampleLookups .strict false snapshot 1 sampleFlow = some (.ok (some ⟨"PROXY", .vless, none, none⟩)) :=
  ⟨rfl, ⟨rfl, rfl, rfl, rfl, rfl, rfl⟩, rfl⟩

end AsterCore.Tunnel
