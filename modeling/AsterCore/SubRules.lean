import AsterCore.RuleEngine

namespace AsterCore.Tunnel

def Helper.passes (h : Helper) (m : Metadata) (name : String) : Bool := name = "PASS-RULE" || h.checkPassRule m name

mutual

/-- A rule with the rules of its list in its place when it is a SUB-RULE rule: the condition is asked once and then each rule
of the list at most once. Only the lists of sub-rules hold SUB-RULE rules: `payloadToRule` and the providers refuse them. -/
def Rule.inlined (env : Lookups) : Rule → Helper → MatchContext → Matched
  | .subRules condition _ rules, h, c =>
    let ((matched, _), c) := condition.matches env h c
    if matched then inlineRules env rules h c else ((false, ""), c)
  | .wrapper rule disabled, h, c => if disabled then ((false, ""), c) else rule.inlined env h c
  | rule, h, c => rule.matches env h c

def inlineRules (env : Lookups) : List Rule → Helper → MatchContext → Matched
  | [], _, c => ((false, ""), c)
  | rule :: rules, h, c =>
    let ((matched, name), c) := rule.inlined env h c
    if matched && !h.passes c.metadata name then ((true, name), c) else inlineRules env rules h c

end

/-- The list of a SUB-RULE rule is evaluated without a lookup: it finds the address and the process known, or asks for neither. -/
def Rule.LooksNothingUp (env : Lookups) : Rule → Helper → MatchContext → Prop
  | .subRules condition _ rules, h, c => (inlineRules env rules h (condition.matches env h c).2).2 = (condition.matches env h c).2
  | .wrapper rule _, h, c => rule.LooksNothingUp env h c
  | _, _, _ => True

mutual

/-- Every SUB-RULE rule that is reached in a list and matches looks nothing up there. -/
def Rule.Steady (env : Lookups) : Rule → Helper → MatchContext → Prop
  | .subRules condition _ rules, h, c => (condition.matches env h c).1.1 = true → SteadyRules env rules h (condition.matches env h c).2
  | .wrapper rule disabled, h, c => disabled = false → rule.Steady env h c
  | _, _, _ => True

def SteadyRules (env : Lookups) : List Rule → Helper → MatchContext → Prop
  | [], _, _ => True
  | rule :: rules, h, c =>
    let ((matched, name), c') := rule.inlined env h c
    rule.Steady env h c ∧ (matched = true → rule.LooksNothingUp env h c) ∧
    ((matched && !h.passes c'.metadata name) = false → SteadyRules env rules h c')

end

mutual

variable {env : Lookups} {h : Helper}

theorem Rule.matches_eq_inlined : ∀ {rule : Rule} {c : MatchContext}, rule.Steady env h c →
    rule.matches env h c = rule.inlined env h c
  | .subRules condition name rules, c, hs => by
    unfold Rule.matches Rule.inlined
    dsimp only
    split
    next hm => exact matchSubRules_eq_inlineRules (hs hm)
    · rfl
  | .wrapper rule disabled, c, hs => by
    unfold Rule.matches Rule.inlined
    split
    · rfl
    next he => exact Rule.matches_eq_inlined (hs (Bool.eq_false_of_not_eq_true he))
  | .host .., c, _ | .address .., c, _ | .inName .., c, _ | .inType .., c, _ | .context .., c, _ | .final .., c, _
  | .ruleSet .., c, _ | .logic .., c, _ => by rw [Rule.inlined] <;> simp

theorem matchSubRules_eq_inlineRules : ∀ {rules : List Rule} {c : MatchContext},
    SteadyRules env rules h c → matchSubRules env rules h c = inlineRules env rules h c
  | [], c, _ => by rw [matchSubRules, inlineRules]
  | rule :: rules, c, hs => by
    obtain ⟨hf, ha, hl⟩ := hs
    unfold matchSubRules inlineRules
    rw [Rule.matches_eq_inlined hf]
    dsimp only
    by_cases hm : (rule.inlined env h c).1.1 = true
    · rw [if_pos hm, Rule.subRulesAgain_eq hf (ha hm) hm]
      simp only [hm] at hl ⊢
      split
      next hp =>
        change h.passes _ _ = true at hp
        rw [matchSubRules_eq_inlineRules (hl (by simp [hp]))]
        simp [hp]
      next hst =>
        change ¬h.passes _ _ = true at hst
        simp [hst]
    · rw [if_neg hm, if_neg (by simp [hm])]
      exact matchSubRules_eq_inlineRules (hl (by simp [hm]))

theorem Rule.subRulesAgain_eq : ∀ {rule : Rule} {c : MatchContext}, rule.Steady env h c → rule.LooksNothingUp env h c →
    (rule.inlined env h c).1.1 = true →
    rule.subRulesAgain env (rule.inlined env h c).1.2 h (rule.inlined env h c).2 =
      ((true, (rule.inlined env h c).1.2), (rule.inlined env h c).2)
  | .subRules condition name rules, c, hs, hn, hm => by
    have hc : (condition.matches env h c).1.1 = true := by
      by_contra no
      simp [Rule.inlined, no] at hm
    have first : (Rule.subRules condition name rules).inlined env h c = inlineRules env rules h (condition.matches env h c).2 := by
      rw [Rule.inlined]
      exact if_pos hc
    -- the second evaluation starts where the first one did
    have same : (inlineRules env rules h (condition.matches env h c).2).2 = (condition.matches env h c).2 := hn
    rw [first] at hm ⊢
    rw [Rule.subRulesAgain, same, matchSubRules_eq_inlineRules (hs hc)]
    exact Prod.ext (Prod.ext hm rfl) same
  | .wrapper rule disabled, c, hs, hn, hm => by
    have on : disabled = false := by
      cases disabled with
      | false => rfl
      | true => simp [Rule.inlined] at hm
    subst on
    simp only [Rule.inlined, Bool.false_eq_true, if_false] at hm ⊢
    rw [Rule.subRulesAgain]
    exact Rule.subRulesAgain_eq (hs rfl) hn hm
  | .host .., c, _, _, hm | .address .., c, _, _, hm | .inName .., c, _, _, hm | .inType .., c, _, _, hm
  | .context .., c, _, _, hm | .final .., c, _, _, hm | .ruleSet .., c, _, _, hm | .logic .., c, _, _, hm => by
    rw [Rule.subRulesAgain] <;> simp

end

/-- A SUB-RULE rule gives the verdict of its list in its place, when no list in it that is asked twice looks anything up. -/
theorem sub_rules_inlined (env : Lookups) (h : Helper) (c : MatchContext) (condition : Rule) (name : String) (rules : List Rule)
    (steady : (Rule.subRules condition name rules).Steady env h c) :
    (Rule.subRules condition name rules).matches env h c = (Rule.subRules condition name rules).inlined env h c :=
  Rule.matches_eq_inlined steady

def nested (before rules : List Rule) : Rule :=
  let onTCP := Rule.context .network (fun m => m.network = .tcp) ""
  .subRules onTCP "outer" (before ++ [.subRules onTCP "inner" rules])

def only (noResolveIP : Bool) (ip : Addr) (adapter : String) : Rule := .address .ipcidr false noResolveIP (fun x => x = ip) adapter

def anyAddress : Rule := .address .ipcidr false false (fun _ => true) "PROXY"

def privateHost : Lookups where
  resolveIP _ := some (.v4 0x0a000001)
  findProcess _ := ⟨0, "", ""⟩

/-- The rule before the nested list resolves the host without matching, and the nested list then looks nothing up. -/
def resolvedBefore : Rule := nested [only false (.v4 0x0a000009) "OTHER"] [only true (.v4 0x0a000001) "PRIVATE", anyAddress]

theorem sub_rules_inlined_steady :
    (resolvedBefore.matches privateHost { resolveIP := true } { metadata := { host := "a" } }).1 = (true, "PRIVATE") ∧
    resolvedBefore.matches privateHost { resolveIP := true } { metadata := { host := "a" } } =
      resolvedBefore.inlined privateHost { resolveIP := true } { metadata := { host := "a" } } := by
  refine ⟨by decide, sub_rules_inlined _ _ _ _ _ _ fun _ => ?_⟩
  let known : MatchContext := { metadata := { host := "a", dstIP := .v4 0x0a000001 }, resolved := true }
  have first : (only false (.v4 0x0a000009) "OTHER").inlined privateHost { resolveIP := true } { metadata := { host := "a" } } =
      ((false, "OTHER"), known) := rfl
  have inner : inlineRules privateHost [only true (.v4 0x0a000001) "PRIVATE", anyAddress] { resolveIP := true } known =
      ((true, "PRIVATE"), known) := rfl
  change SteadyRules privateHost [only false _ _, .subRules _ "inner" [only true _ _, anyAddress]] _ { metadata := { host := "a" } }
  unfold SteadyRules
  rw [first]
  refine ⟨trivial, nofun, fun _ => ⟨fun _ => ⟨trivial, fun _ => trivial, nofun⟩, fun _ => ?_, nofun⟩⟩
  exact (congrArg Prod.snd inner :)

/-- The second evaluation sees the address that the first one looked up. -/
theorem sub_rules_inlined_not :
    ((nested [] [only true (.v4 0x0a000001) "PRIVATE", anyAddress]).matches privateHost { resolveIP := true }
      { metadata := { host := "a" } }).1 = (true, "PRIVATE") ∧
    ((nested [] [only true (.v4 0x0a000001) "PRIVATE", anyAddress]).inlined privateHost { resolveIP := true }
      { metadata := { host := "a" } }).1 = (true, "PROXY") := by
  decide

end AsterCore.Tunnel
