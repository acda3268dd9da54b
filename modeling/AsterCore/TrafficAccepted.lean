import AsterCore.TrafficFormat

namespace AsterCore

open List

section Parsed

variable (lib : Stdlib)

def ParsedGlobal (raw : RawPolicy) (p : Policy) : Prop :=
  ∃ base, parsePolicy lib .global raw = .ok base ∧ p = { base with id := if base.id = "" then "global" else base.id }

def ParsedDevice (raw : RawDevicePolicy) (p : Policy) : Prop :=
  ∃ base mac cidrs, parsePolicy lib .device raw.toRawPolicy = .ok base ∧
    mac = (if raw.mac = "" then "" else lib.toLower (trimSpace raw.mac)) ∧ (raw.mac ≠ "" → macPattern mac = true) ∧
    List.Forall₂ (fun value q => (lib.parsePrefix (trimSpace value)).map Prefix.masked = .ok q) raw.sourceCIDRs cidrs ∧
    cidrs ≠ [] ∧
    p = { base with
      id := if base.id = "" then stableID lib ["device", mac, joinWith "," raw.sourceCIDRs] else base.id
      mac := mac
      sourceCIDRs := cidrs }

def ParsedRule (raw : RawRulePolicy) (p : Policy) : Prop :=
  ∃ base selector, parsePolicy lib .rule raw.toRawPolicy = .ok base ∧
    selector = canonicalRule lib raw.type raw.payload raw.target ∧ selector.type ≠ "" ∧ selector.target ≠ "" ∧
    p = { base with
      id := if base.id = "" then "rule-" ++ String.ofList (selector.fingerprint.toList.take 16) else base.id
      rule := selector }

def ParsedTarget (raw : RawTargetPolicy) (p : Policy) : Prop :=
  ∃ base kind name, parsePolicy lib .target raw.toRawPolicy = .ok base ∧ kind = lib.toLower (trimSpace raw.kind) ∧
    name = trimSpace raw.target ∧ (kind = "proxy" ∨ kind = "group") ∧ name ≠ "" ∧
    p = { base with
      id := if base.id = "" then stableID lib ["target", kind, name] else base.id
      target := ⟨kind, name⟩ }

/-- The policies come in the order of their kinds. -/
structure ParsedPolicies (raw : RawConfig) (policies : List Policy) : Prop where
  kinds : ∃ globals devices rules targets, List.Forall₂ (ParsedGlobal lib) raw.global.toList globals ∧
    List.Forall₂ (ParsedDevice lib) raw.devices devices ∧ List.Forall₂ (ParsedRule lib) raw.rules rules ∧
    List.Forall₂ (ParsedTarget lib) raw.targets targets ∧ policies = globals ++ devices ++ rules ++ targets
  ids : ∀ p ∈ policies, idPattern p.id = true

/-- All that `ParseConfig` accepts, with the configuration it makes of it. -/
structure Accepted (resolvePath : String → Except String String) (raw : RawConfig) (c : Config) : Prop where
  on : raw.enabled = true
  enabled : c.enabled = true
  requested : c.requestedStore = if trimSpace raw.store = "" then "traffic-control.db" else trimSpace raw.store
  path : ∃ store, resolvePath c.requestedStore = .ok store ∧ c.storePath = lib.cleanPath store
  checkpoint : parseCheckpoint lib raw.checkpointInterval = .ok c.checkpointInterval
  size : c.maxStoreSize = if raw.maxStoreSize = 0 then defaultStoreLimit else raw.maxStoreSize
  bounds : ¬ (c.maxStoreSize < 4194304 ∨ 1073741824 < c.maxStoreSize)
  portal : c.portal = raw.portal
  reports : parseReports lib raw.reports = .ok c.reports
  count : policyCount raw ≤ maxTrafficControlPolicies
  policies : ParsedPolicies lib raw c.policies

end Parsed

section Inversion

variable {lib : Stdlib}

variable {α : Type} {list list' : PolicyList} {i : Nat} {raw : RawConfig}

theorem wrapError_eq_ok {context : String} {x : Except String α} {a : α} : wrapError context x = .ok a ↔ x = .ok a := by
  cases x with
  | ok => exact Iff.rfl
  | error => exact ⟨nofun, nofun⟩

theorem except_bind_ok_iff {β : Type} {x : Except String α} {f : α → Except String β} {b : β} :
    x >>= f = .ok b ↔ ∃ a, x = .ok a ∧ f a = .ok b := by
  refine ⟨except_bind_eq_ok, ?_⟩
  rintro ⟨a, rfl, h⟩
  exact h

theorem addPolicy_eq_ok {p : Policy} :
    addPolicy lib list p = .ok list' ↔ idPattern p.id = true ∧ list'.policies = list.policies ++ [p] := by
  obtain ⟨_, hn'⟩ := list'
  unfold addPolicy
  cases hp : idPattern p.id with
  | false => simp
  | true =>
    simp only [Bool.not_true, Bool.false_eq_true, if_false, true_and]
    split
    next hk =>
      refine ⟨nofun, ?_⟩
      rintro rfl
      rw [map_append, nodup_append] at hn'
      exact absurd rfl (hn'.2.2 p.id hk p.id (by simp))
    · simp [eq_comm]

theorem parseGlobal_eq_ok {raw : RawPolicy} :
    parseGlobal lib list raw = .ok list' ↔ ∃ p, ParsedGlobal lib raw p ∧ addPolicy lib list p = .ok list' := by
  unfold parseGlobal
  simp only [except_bind_ok_iff, wrapError_eq_ok]
  constructor
  · rintro ⟨base, hp, ha⟩
    exact ⟨_, ⟨base, hp, rfl⟩, ha⟩
  · rintro ⟨_, ⟨base, hp, rfl⟩, ha⟩
    exact ⟨base, hp, ha⟩

theorem parseRule_eq_ok {raw : RawRulePolicy} :
    parseRule lib list i raw = .ok list' ↔ ∃ p, ParsedRule lib raw p ∧ addPolicy lib list p = .ok list' := by
  unfold parseRule
  simp only [except_bind_ok_iff, wrapError_eq_ok, ite_error_eq_ok, not_or]
  constructor
  · rintro ⟨base, hp, ⟨type, ht⟩, ha⟩
    exact ⟨_, ⟨base, _, hp, rfl, type, ht, rfl⟩, ha⟩
  · rintro ⟨_, ⟨base, _, hp, rfl, type, ht, rfl⟩, ha⟩
    exact ⟨base, hp, ⟨type, ht⟩, ha⟩

theorem parseTarget_eq_ok {raw : RawTargetPolicy} :
    parseTarget lib list i raw = .ok list' ↔ ∃ p, ParsedTarget lib raw p ∧ addPolicy lib list p = .ok list' := by
  unfold parseTarget
  simp only [except_bind_ok_iff, wrapError_eq_ok, ite_error_eq_ok, not_and_or, not_not]
  constructor
  · rintro ⟨base, hp, hk, hn, ha⟩
    exact ⟨_, ⟨base, _, _, hp, rfl, rfl, hk, hn, rfl⟩, ha⟩
  · rintro ⟨_, ⟨base, _, _, hp, rfl, rfl, hk, hn, rfl⟩, ha⟩
    exact ⟨base, hp, hk, hn, ha⟩

theorem mapM_eq_ok {β : Type} {f : α → Except String β} {xs : List α} {ys : List β} :
    xs.mapM f = .ok ys ↔ List.Forall₂ (fun x y => f x = .ok y) xs ys := by
  induction xs generalizing ys with
  | nil =>
    rw [forall₂_nil_left_iff]
    exact ⟨fun h => by cases h; rfl, fun h => by rw [h]; rfl⟩
  | cons _ _ ih =>
    rw [mapM_cons]
    simp only [except_bind_ok_iff, ih]
    constructor
    · rintro ⟨y, hf, _, hr, hd⟩
      cases hd
      exact .cons hf hr
    · intro h
      cases h with
      | cons hf hr => exact ⟨_, hf, _, hr, rfl⟩

theorem parseDevice_eq_ok {raw : RawDevicePolicy} :
    parseDevice lib list i raw = .ok list' ↔ ∃ p, ParsedDevice lib raw p ∧ addPolicy lib list p = .ok list' := by
  unfold parseDevice
  simp only [except_bind_ok_iff, wrapError_eq_ok]
  constructor
  · rintro ⟨base, hp, ha⟩
    generalize hh : (if raw.mac = "" then "" else lib.toLower (trimSpace raw.mac)) = mac at ha
    obtain ⟨hv, ha⟩ := ite_error_eq_ok.mp ha
    obtain ⟨cidrs, hf, ha⟩ := except_bind_eq_ok ha
    rw [mapM_eq_ok] at hf
    simp only [wrapError_eq_ok] at hf
    split at ha
    · split at ha <;> cases ha
    next hs =>
      have hpa : raw.mac ≠ "" → macPattern mac = true := by
        intro ht
        by_contra bad
        exact hv ⟨ht, by simpa using bad⟩
      exact ⟨_, ⟨base, mac, cidrs, hp, hh.symm, hpa, hf, hs, rfl⟩, ha⟩
  · rintro ⟨_, ⟨base, _, cidrs, hp, rfl, mac, hf, hs, rfl⟩, ha⟩
    refine ⟨base, hp, ?_⟩
    rw [if_neg (fun bad => (by rw [mac bad.1] at bad; cases bad.2))]
    refine except_bind_ok_iff.mpr ⟨cidrs, ?_, ?_⟩
    · rw [mapM_eq_ok]
      simp only [wrapError_eq_ok]
      exact hf
    · rw [if_neg hs]
      exact ha

/-- A loop over the raw policies of one kind. -/
theorem forIndexed_eq_ok (body : PolicyList → Nat → α → Except String PolicyList) (parsed : α → Policy → Prop)
    (step : ∀ {list list' : PolicyList} {i : Nat} {x : α},
      body list i x = .ok list' ↔ ∃ p, parsed x p ∧ addPolicy lib list p = .ok list') {xs : List α} :
    forIndexed body i xs list = .ok list' ↔ ∃ ps, List.Forall₂ parsed xs ps ∧ list'.policies = list.policies ++ ps ∧
      ∀ p ∈ ps, idPattern p.id = true := by
  induction xs generalizing i list with
  | nil =>
    constructor
    · intro h
      cases h
      exact ⟨[], .nil, (append_nil _).symm, forall_mem_nil _⟩
    · rintro ⟨_, none, hs, _⟩
      rw [forall₂_nil_left_iff.mp none, append_nil] at hs
      obtain ⟨_, _⟩ := list'
      cases hs
      rfl
  | cons _ _ ih =>
    unfold forIndexed
    simp only [except_bind_ok_iff, step, ih]
    constructor
    · rintro ⟨_, ⟨p, hh, ha⟩, ps, hr, hs, hv⟩
      obtain ⟨hp, hm⟩ := addPolicy_eq_ok.mp ha
      refine ⟨p :: ps, .cons hh hr, ?_, ?_⟩
      · rw [hs, hm, append_assoc]
        rfl
      · intro q hq
        rcases mem_cons.mp hq with rfl | hl
        · exact hp
        · exact hv q hl
    · rintro ⟨_, all, hs, hv⟩
      cases all with
      | @cons _ p _ ps hh hr =>
        have hn : ((list.policies ++ [p]).map Policy.id).Nodup := by
          have hw := list'.idsNodup
          rw [hs, show list.policies ++ p :: ps = list.policies ++ [p] ++ ps by simp, map_append] at hw
          exact (nodup_append.mp hw).1
        refine ⟨⟨list.policies ++ [p], hn⟩, ⟨p, hh, ?_⟩, ps, hr, ?_, fun q hq => hv q (mem_cons_of_mem _ hq)⟩
        · exact addPolicy_eq_ok.mpr ⟨hv p mem_cons_self, rfl⟩
        · rw [hs]
          simp

theorem parseGlobals_eq_ok {raw : Option RawPolicy} :
    parseGlobals lib ⟨[], List.nodup_nil⟩ raw = .ok list' ↔
      List.Forall₂ (ParsedGlobal lib) raw.toList list'.policies ∧ ∀ p ∈ list'.policies, idPattern p.id = true := by
  cases raw with
  | none =>
    rw [Option.toList_none, forall₂_nil_left_iff]
    obtain ⟨_, _⟩ := list'
    constructor
    · intro h
      cases h
      exact ⟨rfl, forall_mem_nil _⟩
    · rintro ⟨rfl, _⟩
      rfl
  | some =>
    rw [parseGlobals, parseGlobal_eq_ok]
    simp only [addPolicy_eq_ok]
    constructor
    · rintro ⟨p, hp, hpa, hs⟩
      rw [hs]
      exact ⟨.cons hp .nil, fun q hq => (by rw [mem_singleton.mp hq]; exact hpa)⟩
    · rintro ⟨all, hv⟩
      generalize hps : list'.policies = ps at all hv
      cases all with
      | @cons _ p _ _ hp hr =>
        cases hr
        exact ⟨p, hp, hv p mem_cons_self, rfl⟩

theorem parsePolicies_eq_ok : parsePolicies lib raw = .ok list' ↔ ParsedPolicies lib raw list'.policies := by
  unfold parsePolicies
  simp only [except_bind_ok_iff, parseGlobals_eq_ok]
  constructor
  · rintro ⟨list₁, ⟨hg, ids₁⟩, _, hs, _, hth, hf⟩
    obtain ⟨ds, hd, hs₂, ids₂⟩ := (forIndexed_eq_ok (parseDevice lib) (ParsedDevice lib) parseDevice_eq_ok).mp hs
    obtain ⟨rs, hr, hs₃, ids₃⟩ := (forIndexed_eq_ok (parseRule lib) (ParsedRule lib) parseRule_eq_ok).mp hth
    obtain ⟨ts, ht, hs₄, ids₄⟩ := (forIndexed_eq_ok (parseTarget lib) (ParsedTarget lib) parseTarget_eq_ok).mp hf
    have hpo : list'.policies = list₁.policies ++ ds ++ rs ++ ts := by
      rw [hs₄, hs₃, hs₂]
    refine ⟨⟨list₁.policies, ds, rs, ts, hg, hd, hr, ht, hpo⟩, ?_⟩
    intro p hp
    rw [hpo, mem_append, mem_append, mem_append] at hp
    rcases hp with ((hp | hp) | hp) | hp
    · exact ids₁ p hp
    · exact ids₂ p hp
    · exact ids₃ p hp
    · exact ids₄ p hp
  · rintro ⟨⟨gs, ds, rs, ts, hg, hd, hr, ht, same⟩, hv⟩
    have hn := list'.idsNodup
    rw [same, map_append] at hn
    have hn₃ := (nodup_append.mp hn).1
    have hn₂ := hn₃
    rw [map_append] at hn₂
    have hn₂ := (nodup_append.mp hn₂).1
    have hn₁ := hn₂
    rw [map_append] at hn₁
    have hn₁ := (nodup_append.mp hn₁).1
    rw [same] at hv
    refine ⟨⟨gs, hn₁⟩, ⟨hg, fun p hp => hv p (by simp [hp])⟩, ⟨gs ++ ds, hn₂⟩, ?_,
      ⟨gs ++ ds ++ rs, hn₃⟩, ?_, ?_⟩
    · exact (forIndexed_eq_ok (parseDevice lib) (ParsedDevice lib) parseDevice_eq_ok).mpr ⟨ds, hd, rfl, fun p hp => hv p (by simp [hp])⟩
    · exact (forIndexed_eq_ok (parseRule lib) (ParsedRule lib) parseRule_eq_ok).mpr ⟨rs, hr, rfl, fun p hp => hv p (by simp [hp])⟩
    · exact (forIndexed_eq_ok (parseTarget lib) (ParsedTarget lib) parseTarget_eq_ok).mpr ⟨ts, ht, same, fun p hp => hv p (by simp [hp])⟩

theorem parseConfig_eq_some {resolvePath : String → Except String String} {c : Config} :
    parseConfig lib raw resolvePath = .ok (some c) ↔ Accepted lib resolvePath raw c := by
  unfold parseConfig
  cases on : raw.enabled with
  | false => exact ⟨fun h => (by cases h), fun h => (by rw [h.on] at on; cases on)⟩
  | true =>
    simp only [Bool.not_true, Bool.false_eq_true, if_false, except_bind_ok_iff, wrapError_eq_ok, ite_error_eq_ok]
    constructor
    · rintro ⟨store, hr, _, hi, hb, _, hre, hc, _, hp, rest⟩
      cases rest
      refine ⟨on, rfl, ?_, ⟨store, ?_, rfl⟩, hi, ?_, hb, rfl, hre, Nat.not_lt.mp hc, parsePolicies_eq_ok.mp hp⟩ <;> dsimp only
      exact hr
    · intro h
      obtain ⟨store, hr, path⟩ := h.path
      rw [← h.requested, ← h.size]
      refine ⟨store, hr, c.checkpointInterval, h.checkpoint, h.bounds, c.reports, h.reports, Nat.not_lt.mpr h.count,
        ⟨c.policies, c.idsNodup⟩, parsePolicies_eq_ok.mpr h.policies, ?_⟩
      rw [← h.portal, ← path]
      have he := h.enabled
      obtain ⟨_, _, _, _, _, _, _, _, _⟩ := c
      cases he
      rfl

theorem parseConfig_eq_none {resolvePath : String → Except String String} :
    parseConfig lib raw resolvePath = .ok none ↔ raw.enabled = false := by
  unfold parseConfig
  cases on : raw.enabled with
  | false => exact ⟨fun _ => rfl, fun _ => rfl⟩
  | true =>
    simp only [Bool.not_true, Bool.false_eq_true, if_false, except_bind_ok_iff, ite_error_eq_ok, Bool.true_eq_false, iff_false]
    rintro ⟨_, _, _, _, _, _, _, _, _, _, hr⟩
    cases hr

end Inversion

end AsterCore
