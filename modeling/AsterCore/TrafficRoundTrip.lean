import AsterCore.GoRunes
import AsterCore.TrafficAccepted

namespace AsterCore

open List Option Char Policy RawConfig

section Values

variable {lib : Stdlib}

theorem isSpace_of_isAlpha {c : Char} (letter : c.isAlpha = true) : isSpace c = false := by
  have range : (65 ≤ c.toNat ∧ c.toNat ≤ 90) ∨ (97 ≤ c.toNat ∧ c.toNat ≤ 122) := by
    unfold isAlpha isUpper isLower at letter
    simp only [Bool.or_eq_true, Bool.and_eq_true, decide_eq_true_eq] at letter
    exact letter
  unfold isSpace
  simp only [mem_cons, not_mem_nil, or_false, Bool.or_eq_false_iff, Bool.and_eq_false_iff, decide_eq_false_iff_not]
  omega

theorem idPattern_plain {id : String} (h : idPattern id = true) : id ≠ "" ∧ Plain id.toList := by
  unfold idPattern at h
  split at h
  · cases h
  next c _ chars =>
    simp only [Bool.and_eq_true] at h
    obtain ⟨⟨first, _⟩, others⟩ := h
    have alnum : ∀ c, isAlnum c = true → isSpace c = false := by
      intro c hc
      rcases Bool.or_eq_true _ _ ▸ hc with letter | digit
      · exact isSpace_of_isAlpha letter
      · exact isSpace_of_isDigit digit
    refine ⟨fun empty => (by rw [empty] at chars; cases chars), ?_⟩
    rw [chars]
    intro d hd
    rcases mem_cons.mp hd with rfl | later
    · exact alnum d first
    · have allowed := all_eq_true.mp others d later
      simp only [Bool.or_eq_true, beq_iff_eq] at allowed
      rcases allowed with ((letter | rfl) | rfl) | rfl
      · exact alnum d letter
      · decide
      · decide
      · decide

section

variable (lawful : lib.Lawful)

include lawful

theorem trimSpace_ne_of_parse {text : String} {d : Int} (h : parseFlexibleDuration lib text = .ok d) : trimSpace text ≠ "" := by
  obtain ⟨f, hr, _⟩ := lawful.lower
  intro he
  have hc : trimSpaceList text.toList = [] := by
    rw [← toList_trimSpace, he]
    rfl
  unfold parseFlexibleDuration at h
  simp only [hr.toList, trimSpaceList_map hr.space, hc, map_nil] at h
  cases h

theorem parseCheckpoint_format {raw : String} {d : Int} (h : parseCheckpoint lib raw = .ok d) :
    parseCheckpoint lib (formatFlexibleDuration d) = .ok d := by
  have ha : durationMinute ∣ d ∧ ¬ (d < durationMinute ∨ durationHour < d) := by
    unfold parseCheckpoint at h
    split at h
    · cases h
    next hp =>
      obtain ⟨hr, h⟩ := ite_error_eq_ok.mp h
      cases h
      refine ⟨?_, hr⟩
      unfold parseOptionalDuration at hp
      split at hp
      · cases hp
        decide
      · exact parseFlexibleDuration_minutes hp
  obtain ⟨hw, hr⟩ := ha
  have pos : 0 < d := by
    unfold durationMinute at hr
    omega
  have hl : d ≤ maxDuration := by
    unfold maxDuration
    unfold durationHour durationMinute at hr
    omega
  have read := parse_formatFlexibleDuration lawful pos hw hl
  unfold parseCheckpoint parseOptionalDuration
  rw [if_neg (trimSpace_ne_of_parse lawful read), read]
  simp only
  rw [if_neg hr]

theorem parseRetention_format {name raw : String} {fallback d : Int}
    (hd : durationMinute ∣ fallback ∧ ¬ (fallback < 24 * durationHour ∨ 10 * 365 * 24 * durationHour < fallback))
    (h : parseRetention lib name raw fallback = .ok d) : parseRetention lib name (formatFlexibleDuration d) fallback = .ok d := by
  have ha : durationMinute ∣ d ∧ ¬ (d < 24 * durationHour ∨ 10 * 365 * 24 * durationHour < d) := by
    unfold parseRetention at h
    split at h
    · cases h
      exact hd
    · split at h
      · cases h
      next hp =>
        obtain ⟨hr, h⟩ := ite_error_eq_ok.mp h
        cases h
        exact ⟨parseFlexibleDuration_minutes hp, hr⟩
  obtain ⟨hw, hr⟩ := ha
  have pos : 0 < d := by
    unfold durationHour at hr
    omega
  have hl : d ≤ maxDuration := by
    unfold maxDuration
    unfold durationHour at hr
    omega
  unfold parseRetention
  rw [if_neg (formatFlexibleDuration_ne_empty pos), parse_formatFlexibleDuration lawful pos hw hl]
  simp only
  rw [if_neg hr]

theorem parseReports_raw {raw : RawReportsConfig} {reports : ReportsConfig}
    (h : parseReports lib raw = .ok reports) : parseReports lib reports.raw = .ok reports := by
  obtain ⟨_, hh, h⟩ := except_bind_eq_ok h
  obtain ⟨_, hd, h⟩ := except_bind_eq_ok h
  obtain ⟨_, hm, h⟩ := except_bind_eq_ok h
  obtain ⟨_, ho, h⟩ := except_bind_eq_ok h
  cases h
  unfold parseReports ReportsConfig.raw
  simp only [parseRetention_format lawful ⟨by decide, by decide⟩ hh, parseRetention_format lawful ⟨by decide, by decide⟩ hd,
    parseRetention_format lawful ⟨by decide, by decide⟩ hm, parseRetention_format lawful ⟨by decide, by decide⟩ ho]
  rfl

theorem parseQuota_raw {raw : RawQuotaConfig} {quota : QuotaConfig} (h : parseQuota lib raw = .ok quota) :
    parseQuota lib quota.raw = .ok quota := by
  unfold parseQuota at h
  simp only at h
  split at h
  · cases h
  next hn =>
    split at h
    next hl =>
      split at h
      · cases h
      next window hp =>
        split at h <;> cases h
        next hr =>
          have hb := hr
          unfold minQuotaWindow maxQuotaWindow durationDay durationHour at hb
          have read := parse_formatFlexibleDuration lawful (show 0 < window by omega) (parseFlexibleDuration_minutes hp)
            (show window ≤ maxDuration by unfold maxDuration; omega)
          have hu : ∀ {v fallback : Int64}, ¬ v < 0 → ¬ fallback < 0 → fallback ≠ 0 →
              ¬ (if v = 0 then fallback else v) < 0 ∧ (if v = 0 then fallback else v) ≠ 0 := by
            intro v _ hv hf hne
            split
            · exact ⟨hf, hne⟩
            next hs => exact ⟨hv, hs⟩
          simp only [not_or] at hn
          obtain ⟨ht, up, hd, hou, hod⟩ := hn
          obtain ⟨up₁, up₂⟩ := hu hou (show ¬ defaultOverageUploadBPS < 0 by decide) (by decide)
          obtain ⟨hd₁, hd₂⟩ := hu hod (show ¬ defaultOverageDownloadBPS < 0 by decide) (by decide)
          unfold parseQuota QuotaConfig.raw
          rw [if_neg (by simp only [not_or]; exact ⟨ht, up, hd, up₁, hd₁⟩), if_pos hl, read]
          simp only
          rw [if_neg hr, if_neg up₂, if_neg hd₂]
          rfl
    next hun =>
      split at h <;> cases h
      next none =>
        unfold parseQuota QuotaConfig.raw
        rw [if_neg hn, if_neg hun]
        rfl

theorem parsePolicy_raw {kind : PolicyKind} {raw : RawPolicy} {base : Policy}
    (h : parsePolicy lib kind raw = .ok base) {id : String} (hv : idPattern id = true) :
    parsePolicy lib kind { base.raw with id := id } = .ok { base with id := id } := by
  obtain ⟨hr, h⟩ := ite_error_eq_ok.mp h
  obtain ⟨_, hp, h⟩ := except_bind_eq_ok h
  cases h
  unfold parsePolicy Policy.raw
  rw [if_neg hr, parseQuota_raw lawful hp, trimSpace_of_trimmed (idPattern_plain hv).2.trimmed, trimSpace_idem]
  rfl

end

theorem parsePolicy_kind {kind : PolicyKind} {raw : RawPolicy} {base : Policy} (h : parsePolicy lib kind raw = .ok base) :
    base.kind = kind := by
  obtain ⟨_, _, h⟩ := except_bind_eq_ok (ite_error_eq_ok.mp h).2
  cases h
  rfl

end Values

section Policies

variable {lib : Stdlib}

theorem forall₂_right {α β : Type} {r : α → β → Prop} {p : β → Prop} {xs : List α} {ys : List β} (h : List.Forall₂ r xs ys)
    (he : ∀ x y, r x y → p y) : ∀ y ∈ ys, p y := by
  have hb : List.Forall₂ (fun y x => p y ∧ r x y) ys xs := h.flip.imp fun y x hr => ⟨he x y hr, hr⟩
  exact ((forall₂_and_left ys xs).mp hb).1

theorem parsePrefix_again (hl : lib.Lawful) {value : String} {q : Prefix}
    (h : (lib.parsePrefix (trimSpace value)).map Prefix.masked = .ok q) :
    (lib.parsePrefix (trimSpace (lib.prefixString q))).map Prefix.masked = .ok q := by
  cases hp : lib.parsePrefix (trimSpace value) with
  | error =>
    rw [hp] at h
    cases h
  | ok p =>
    rw [hp] at h
    cases h
    have ha := hl.parsePrefixString _ p hp
    rw [trimSpace_of_trimmed (hl.plainPrefix _ _ ha).trimmed, ha]
    exact congrArg Except.ok p.masked_idem

variable {p : Policy}

section

variable (lawful : lib.Lawful)

include lawful

theorem ParsedGlobal.reparse {raw : RawPolicy} (h : ParsedGlobal lib raw p)
    (hv : idPattern p.id = true) : ParsedGlobal lib p.raw p := by
  obtain ⟨_, hp, hs⟩ := h
  subst hs
  refine ⟨_, parsePolicy_raw lawful hp hv, ?_⟩
  simp only [if_neg (idPattern_plain hv).1]

theorem ParsedDevice.reparse {raw : RawDevicePolicy} (h : ParsedDevice lib raw p)
    (hv : idPattern p.id = true) : ParsedDevice lib (p.rawDevice lib) p := by
  obtain ⟨_, mac, cidrs, hpa, hh, hp, hf, some, hs⟩ := h
  subst hs
  obtain ⟨f, hr, _⟩ := lawful.lower
  have hma : mac = if mac = "" then "" else lib.toLower (trimSpace mac) := by
    by_cases he : mac = ""
    · rw [if_pos he, he]
    · rw [if_neg he]
      by_cases hn : raw.mac = ""
      · rw [if_pos hn] at hh
        exact absurd hh he
      · rw [if_neg hn] at hh
        rw [hh, hr.normal_idem]
  have macPattern : mac ≠ "" → macPattern mac = true := by
    intro ht
    apply hp
    intro hn
    rw [if_pos hn] at hh
    exact ht hh
  have hfa : List.Forall₂ (fun value q => (lib.parsePrefix (trimSpace value)).map Prefix.masked = .ok q)
      (cidrs.map lib.prefixString) cidrs := by
    rw [forall₂_map_left_iff, forall₂_same]
    exact forall₂_right hf fun value q => parsePrefix_again lawful
  refine ⟨_, mac, cidrs, parsePolicy_raw lawful hpa hv, hma, macPattern, hfa, some, ?_⟩
  simp only [if_neg (idPattern_plain hv).1]

theorem ParsedRule.reparse_iff {raw : RawRulePolicy} (h : ParsedRule lib raw p)
    (hv : idPattern p.id = true) : ParsedRule lib p.rawRule p ↔ settledRuleType raw.type = true := by
  obtain ⟨_, selector, hp, hh, type, ht, same⟩ := h
  subst same
  rw [← canonicalRuleType_idem_iff lawful]
  constructor
  · rintro ⟨_, selector', _, hh', _, _, hs'⟩
    have ha : selector = selector' := congrArg rule hs'
    rw [← ha] at hh'
    have hty := congrArg RuleSelector.type hh'
    rw [hh] at hty
    exact hty.symm
  · intro hs
    refine ⟨_, selector, parsePolicy_raw lawful hp hv, ?_, type, ht, ?_⟩
    · change selector = canonicalRule lib selector.type selector.payload selector.target
      rw [hh]
      exact (canonicalRule_idem lawful hs).symm
    · simp only [if_neg (idPattern_plain hv).1]

theorem ParsedTarget.reparse {raw : RawTargetPolicy} (h : ParsedTarget lib raw p)
    (hv : idPattern p.id = true) : ParsedTarget lib p.rawTarget p := by
  obtain ⟨_, kind, name, hp, hhk, hh, hk, some, hs⟩ := h
  subst hs
  obtain ⟨f, hr, _⟩ := lawful.lower
  refine ⟨_, kind, name, parsePolicy_raw lawful hp hv, ?_, ?_, hk, some, ?_⟩
  · change kind = lib.toLower (trimSpace kind)
    rw [hhk, hr.normal_idem]
  · change name = trimSpace name
    rw [hh, trimSpace_idem]
  · simp only [if_neg (idPattern_plain hv).1]

end

end Policies

section Configs

variable {lib : Stdlib}

theorem foldl_addPolicy (lib : Stdlib) {kind : PolicyKind} (write : RawConfig → List Policy → RawConfig)
    (hs : ∀ raw, write raw [] = raw)
    (step : ∀ raw p ps, p.kind = kind → write (raw.addPolicy lib p) ps = write raw (p :: ps)) {ps : List Policy}
    (all : ∀ p ∈ ps, p.kind = kind) (raw : RawConfig) : ps.foldl (RawConfig.addPolicy lib) raw = write raw ps := by
  induction ps generalizing raw with
  | nil => exact (hs raw).symm
  | cons p ps ih =>
    rw [foldl_cons, ih (fun q hq => all q (mem_cons_of_mem _ hq))]
    exact step raw p ps (all p mem_cons_self)

def RawConfig.written (lib : Stdlib) (raw : RawConfig) (global : Option Policy) (ds rs ts : List Policy) : RawConfig :=
  { raw with
    global := global.map Policy.raw
    devices := ds.map (Policy.rawDevice lib)
    rules := rs.map Policy.rawRule
    targets := ts.map Policy.rawTarget }

theorem foldl_addPolicy_kinds {raw : RawConfig} (he : raw.global = none ∧ raw.devices = [] ∧ raw.rules = [] ∧ raw.targets = [])
    {global : Option Policy} {ds rs ts : List Policy} (hg : ∀ p ∈ global, p.kind = .global) (hd : ∀ p ∈ ds, p.kind = .device)
    (hr : ∀ p ∈ rs, p.kind = .rule) (ht : ∀ p ∈ ts, p.kind = .target) :
    (global.toList ++ ds ++ rs ++ ts).foldl (RawConfig.addPolicy lib) raw = raw.written lib global ds rs ts := by
  have hde := foldl_addPolicy lib
    (fun raw ps => { raw with devices := raw.devices ++ ps.map (rawDevice lib) })
    (fun raw => by simp) (fun raw p ps h => by simp [RawConfig.addPolicy, h]) hd
  have hru := foldl_addPolicy lib
    (fun raw ps => { raw with rules := raw.rules ++ ps.map rawRule })
    (fun raw => by simp) (fun raw p ps h => by simp [RawConfig.addPolicy, h]) hr
  have hta := foldl_addPolicy lib
    (fun raw ps => { raw with targets := raw.targets ++ ps.map rawTarget })
    (fun raw => by simp) (fun raw p ps h => by simp [RawConfig.addPolicy, h]) ht
  rw [foldl_append, foldl_append, foldl_append, hde, hru, hta]
  obtain ⟨hng, hnd, hnr, hnt⟩ := he
  cases global with
  | none => simp [written, hng, hnd, hnr, hnt]
  | some p => simp [RawConfig.written, RawConfig.addPolicy, hg p rfl, hnd, hnr, hnt]

theorem policy_kind {p : Policy} : (∀ raw, ParsedGlobal lib raw p → p.kind = .global) ∧
    (∀ raw, ParsedDevice lib raw p → p.kind = .device) ∧ (∀ raw, ParsedRule lib raw p → p.kind = .rule) ∧
    (∀ raw, ParsedTarget lib raw p → p.kind = .target) := by
  refine ⟨?_, ?_, ?_, ?_⟩
  · rintro _ ⟨_, hp, rfl⟩
    have kind := parsePolicy_kind hp
    exact kind
  · rintro _ ⟨_, _, _, hp, _, _, _, _, rfl⟩
    have kind := parsePolicy_kind hp
    exact kind
  · rintro _ ⟨_, _, hp, _, _, _, rfl⟩
    have kind := parsePolicy_kind hp
    exact kind
  · rintro _ ⟨_, kind, _, hp, _, _, _, _, rfl⟩
    have kind := parsePolicy_kind hp
    exact kind

theorem forall₂_toList {α β : Type} {r : α → β → Prop} {x : Option α} {ys : List β} (h : List.Forall₂ r x.toList ys) :
    ∃ y : Option β, ys = y.toList := by
  cases x with
  | none => exact ⟨none, forall₂_nil_left_iff.mp h⟩
  | some =>
    cases h with
    | @cons _ b _ _ _ hr =>
      cases hr
      exact ⟨some b, rfl⟩

theorem forall₂_mem_iff {α β : Type} {r : α → β → Prop} {p : α → Prop} {q : β → Prop} {xs : List α} {ys : List β}
    (h : List.Forall₂ r xs ys) (he : ∀ x y, r x y → y ∈ ys → (q y ↔ p x)) : (∀ y ∈ ys, q y) ↔ ∀ x ∈ xs, p x := by
  induction h with
  | nil => exact ⟨nofun, nofun⟩
  | cons hf _ ih =>
    rw [forall_mem_cons, forall_mem_cons, he _ _ hf mem_cons_self,
      ih fun x y hr hy => he x y hr (mem_cons_of_mem _ hy)]

theorem reparse_all {α : Type} {parsed : α → Policy → Prop} {write : Policy → α} {xs : List α} {ps : List Policy}
    (h : List.Forall₂ parsed xs ps) (hv : ∀ p ∈ ps, idPattern p.id = true)
    (he : ∀ x p, parsed x p → idPattern p.id = true → parsed (write p) p) : List.Forall₂ parsed (ps.map write) ps := by
  rw [forall₂_map_left_iff, forall₂_same]
  intro p hp
  exact forall₂_right h (fun x p hx => he x p hx) p hp (hv p hp)

theorem accepted_raw_iff (hl : lib.Lawful) {resolvePath : String → Except String String} {raw : RawConfig} {c : Config}
    (h : Accepted lib resolvePath raw c) :
    Accepted lib resolvePath (Config.raw lib (some c)) c ↔ ∀ rule ∈ raw.rules, settledRuleType rule.type = true := by
  obtain ⟨_, ds, rs, ts, hgl, hd, hr, ht, same⟩ := h.policies.kinds
  obtain ⟨g, rfl⟩ := forall₂_toList hgl
  have hv := h.policies.ids
  rw [same] at hv
  have htr : trimSpace c.requestedStore = c.requestedStore ∧ c.requestedStore ≠ "" := by
    rw [h.requested]
    split
    · decide
    next some => exact ⟨trimSpace_idem _, some⟩
  have hw : Config.raw lib (some c) = written lib
      { enabled := true, store := c.requestedStore, checkpointInterval := formatFlexibleDuration c.checkpointInterval,
        maxStoreSize := c.maxStoreSize, portal := c.portal, reports := c.reports.raw } g ds rs ts := by
    unfold Config.raw
    simp only
    rw [if_pos h.enabled, if_neg htr.2, same]
    apply foldl_addPolicy_kinds ⟨rfl, rfl, rfl, rfl⟩
    · exact fun p hp => forall₂_right hgl (fun raw p => policy_kind.1 raw) p (mem_toList.mpr hp)
    · exact forall₂_right hd fun raw p => policy_kind.2.1 raw
    · exact forall₂_right hr fun raw p => policy_kind.2.2.1 raw
    · exact forall₂_right ht fun raw p => policy_kind.2.2.2 raw
  have hr_iff := forall₂_mem_iff hr fun raw p hpa hp => hpa.reparse_iff hl (hv p (by simp [hp]))
  rw [hw]
  constructor
  · intro ha rule hh
    obtain ⟨gs', ds', rs', _, hg', hd', hr', _, hs'⟩ := ha.policies.kinds
    have hf : (g.toList ++ ds).length = (gs' ++ ds').length := by
      have hg := hg'.length_eq
      have hde := hd'.length_eq
      simp only [written, length_map, length_toList, isSome_map] at hg hde
      rw [length_append, length_append, length_toList, hg, hde]
    have hle : rs.length = rs'.length := by
      have rule := hr'.length_eq
      simpa only [written, length_map] using rule
    have hta : rs = rs' := by
      rw [same, append_assoc, append_assoc (gs' ++ ds')] at hs'
      exact (append_inj (append_inj hs' hf).2 hle).1
    rw [← hta] at hr'
    exact hr_iff.mp (forall₂_same.mp (forall₂_map_left_iff.mp hr')) rule hh
  · intro hs
    have hra := forall₂_map_left_iff.mpr (forall₂_same.mpr (hr_iff.mpr hs))
    refine ⟨rfl, h.enabled, ?_, h.path, parseCheckpoint_format hl h.checkpoint, ?_, h.bounds, rfl,
      parseReports_raw hl h.reports, ?_, ⟨g.toList, ds, rs, ts, ?_, ?_, hra, ?_, same⟩, h.policies.ids⟩
    · simp only [written, htr.1, if_neg htr.2]
    · have size : c.maxStoreSize ≠ 0 := by
        intro hz
        apply h.bounds
        rw [hz]
        exact .inl (by decide)
      exact (if_neg size).symm
    · have hc := h.count
      unfold policyCount at hc ⊢
      have hg := hgl.length_eq
      rw [hd.length_eq, hr.length_eq, ht.length_eq] at hc
      rw [length_toList, length_toList] at hg
      simp only [written, length_map, isSome_map]
      rw [← hg]
      exact hc
    · have ha := reparse_all hgl (fun p hp => hv p (by simp [hp])) fun x p => ParsedGlobal.reparse hl
      simpa only [written, toList_map] using ha
    · exact reparse_all hd (fun p hp => hv p (by simp [hp])) fun x p => ParsedDevice.reparse hl
    · exact reparse_all ht (fun p hp => hv p (by simp [hp])) fun x p => ParsedTarget.reparse hl

/-- What is written for a configuration is read back as that configuration, exactly when no rule type has a
space laid bare by the removal of its separators. -/
theorem parse_raw_round_trip (lawful : lib.Lawful) {resolvePath : String → Except String String} {raw : RawConfig}
    {result : Option Config} (h : parseConfig lib raw resolvePath = .ok result) :
    parseConfig lib (Config.raw lib result) resolvePath = .ok result ↔
      (raw.enabled = true → ∀ rule ∈ raw.rules, settledRuleType rule.type = true) := by
  cases result with
  | none =>
    have off := parseConfig_eq_none.mp h
    simp only [off, Bool.false_eq_true, false_implies, iff_true]
    rfl
  | some =>
    have ha := parseConfig_eq_some.mp h
    rw [parseConfig_eq_some, accepted_raw_iff lawful ha]
    exact ⟨fun hs _ => hs, fun hs => hs ha.on⟩

end Configs

section Witness

theorem letters_keep {test : Char → Bool} (ho : ∀ c, c.isAlpha = true → test c = false) {f : Char → Char}
    (hle : ∀ c, (f c).isAlpha = c.isAlpha) (hf : ∀ c, c.isAlpha = false → f c = c) (c : Char) : test (f c) = test c := by
  cases hl : c.isAlpha with
  | true => rw [ho c hl, ho (f c) (by rw [hle, hl])]
  | false => rw [hf c hl]

theorem isSeparator_of_isAlpha {c : Char} (hl : c.isAlpha = true) : isSeparator c = false := by
  by_contra hs
  rw [Bool.not_eq_false] at hs
  simp only [isSeparator, Bool.or_eq_true, beq_iff_eq] at hs
  rcases hs with (rfl | rfl) | rfl <;> cases hl

theorem not_isUpper_of_digit_or_lower {c : Char} (h : c.isDigit ∨ c.isLower) : ¬c.isUpper := by
  unfold isDigit isLower isUpper at *
  grind

theorem toLower_of_not_isUpper {c : Char} (h : ¬c.isUpper) : c.toLower = c := by
  unfold toLower isUpper at *
  grind

theorem toUpper_of_not_isLower {c : Char} (h : ¬c.isLower) : c.toUpper = c := by
  unfold toUpper isLower at *
  grind

theorem toUpper_toUpper (c : Char) : c.toUpper.toUpper = c.toUpper := by
  refine toUpper_of_not_isLower ?_
  unfold isLower toUpper
  grind

theorem isAlpha_toLower (c : Char) : c.toLower.isAlpha = c.isAlpha := by
  unfold isAlpha isUpper isLower toLower
  grind

theorem isAlpha_toUpper (c : Char) : c.toUpper.isAlpha = c.isAlpha := by
  unfold isAlpha isUpper isLower toUpper
  grind

theorem asciiStdlib_lawful (sha256Hex : String → String) (durationString : Int → String) :
    (asciiStdlib sha256Hex durationString).Lawful where
  lower := by
    have hf : ∀ c : Char, c.isAlpha = false → c.toLower = c := by
      intro c ho
      unfold isAlpha at ho
      rw [Bool.or_eq_false_iff] at ho
      exact toLower_of_not_isUpper (by simp [ho.1])
    refine ⟨toLower, ⟨fun s => rfl, toLower_toLower, ?_⟩, ?_⟩
    · exact letters_keep (fun c => isSpace_of_isAlpha) isAlpha_toLower hf
    · exact fun c h => toLower_of_not_isUpper (not_isUpper_of_digit_or_lower h)
  upper := by
    have hf : ∀ c : Char, c.isAlpha = false → c.toUpper = c := by
      intro c ho
      unfold isAlpha at ho
      rw [Bool.or_eq_false_iff] at ho
      exact toUpper_of_not_isLower (by simp [ho.2])
    refine ⟨toUpper, ⟨fun s => rfl, toUpper_toUpper, ?_⟩, ?_⟩
    · exact letters_keep (fun c => isSpace_of_isAlpha) isAlpha_toUpper hf
    · exact letters_keep (fun c => isSeparator_of_isAlpha) isAlpha_toUpper hf
  plainPrefix := nofun
  parsePrefixString := nofun

/-- The texts of the rules below, with their digests. -/
def ruleStdlib : Stdlib :=
  asciiStdlib (fun text => if text = "DOMAINSUFFIX\x00example.org\x00DIRECT" then
      "f15d24bb4110f78534bdc5fff67d96af4dea5aff4050d944fd449567c71d8fd9"
    else if text = "\tDOMAIN\x00Example.ORG\x00DIRECT" then
      "17bfbc27385b3bc89d7849ada94cbb5d5036f9ec93d23bd2c19253aa9a80b634"
    else "b96880abfccfbb0f782166391115db0fd03db61eff17cf4ecb92ea82d6b7ab8c") (fun _ => "1h30m0s")

/-- A configuration with a limited rule, to be parsed and written again. -/
def ruleConfig (type : String) : RawConfig where
  enabled := true
  global := some { name := " all " }
  rules := [{ id := "blocked", quota := { totalBytes := 1000, window := "90m" }, type := type, payload := "Example.ORG",
              target := "DIRECT" }]
  targets := [{ id := "out", kind := "Proxy", target := "tokyo" }]

def ruleTypes (result : Except String (Option Config)) : List String :=
  match result with
  | .ok (some c) => c.policies.filterMap (fun p => if p.kind = .rule then some p.rule.type else none)
  | _ => []

theorem exists_of_ruleTypes {result : Except String (Option Config)} {type : String} (h : ruleTypes result = [type]) :
    ∃ c, result = .ok (some c) := by
  cases result with
  | error => cases h
  | ok result =>
    cases result with
    | none => cases h
    | some c => exact ⟨c, rfl⟩

theorem parse_raw_round_trip_domain : ∃ c, parseConfig ruleStdlib (ruleConfig "domain-suffix") .ok = .ok (some c) ∧
    ruleTypes (.ok (some c)) = ["DOMAINSUFFIX"] ∧
    parseConfig ruleStdlib (Config.raw ruleStdlib (some c)) .ok = .ok (some c) := by
  have ht : ruleTypes (parseConfig ruleStdlib (ruleConfig "domain-suffix") .ok) = ["DOMAINSUFFIX"] := by decide +kernel
  obtain ⟨c, hp⟩ := exists_of_ruleTypes ht
  rw [hp] at ht
  refine ⟨c, hp, ht, ?_⟩
  refine (parse_raw_round_trip (asciiStdlib_lawful _ _) hp).mpr fun _ rule mem => ?_
  have hs : settledRuleType "domain-suffix" = true := by decide +kernel
  rw [mem_singleton.mp mem]
  exact hs

/-- The written rule type starts with a tab, and the tab is gone when it is read again. -/
theorem tabbed_rule_type_changes : ∃ c, parseConfig ruleStdlib (ruleConfig "-\tDOMAIN") .ok = .ok (some c) ∧
    ruleTypes (.ok (some c)) = ["\tDOMAIN"] ∧
    ruleTypes (parseConfig ruleStdlib (Config.raw ruleStdlib (some c)) .ok) = ["DOMAIN"] := by
  have ht : ruleTypes (parseConfig ruleStdlib (ruleConfig "-\tDOMAIN") .ok) = ["\tDOMAIN"] := by decide +kernel
  have again : ruleTypes (parseConfig ruleStdlib (ruleConfig "-\tDOMAIN") .ok >>= fun result =>
      parseConfig ruleStdlib (Config.raw ruleStdlib result) .ok) = ["DOMAIN"] := by decide +kernel
  obtain ⟨c, hp⟩ := exists_of_ruleTypes ht
  rw [hp] at ht again
  exact ⟨c, hp, ht, again⟩

end Witness

end AsterCore
