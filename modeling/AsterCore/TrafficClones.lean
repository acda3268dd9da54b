import AsterCore.TrafficOutline
import AsterCore.TrafficReporting

namespace AsterCore

open List Call

theorem limitReports_length (limit : Nat) (series : Nat → ReportSeries) (reports : GoMap String Nat) :
    (limitReports limit series reports).entries.length ≤ limit := by
  unfold limitReports
  split
  next hsm => exact hsm
  next large =>
    simp only
    generalize hs : (reports.entries.map fun e => (e.1, (series e.2).updated)).insertionSort
      (fun a b => if a.2 = b.2 then a.1 ≤ b.1 else a.2 ≤ b.2) = candidates
    have hp : (candidates.map Prod.fst).Perm reports.keys := by
      rw [← hs]
      refine ((perm_insertionSort _ _).map Prod.fst).trans ?_
      rw [map_map]
      exact List.Perm.refl _
    have hl : candidates.length = reports.entries.length := by
      have eq := hp.length_eq
      rw [length_map] at eq
      exact eq.trans (length_map _)
    have sub : ((candidates.take (candidates.length - limit)).map Prod.fst).Sublist (candidates.map Prod.fst) :=
      (take_sublist _ _).map _
    have hd := GoMap.length_eraseKeys (m := reports) ((hp.nodup_iff.mpr reports.keys_nodup).sublist sub)
      (fun k hk => hp.mem_iff.mp (sub.subset hk))
    rw [length_map, length_take] at hd
    omega

def ConfigurePc.staged : ConfigurePc → Option Stage
  | .fillStage _ _ stage _ | .cleanStage _ _ stage | .oldRuntime stage | .gate stage _ | .mu stage _
  | .flushLocked stage _ _ | .publishMaps stage _ => some stage
  | _ => none

def ConfigurePc.clone : ConfigurePc → Option (GoMap String Nat)
  | .openStage _ maps => if maps.reuseStore then some maps.reports else none
  | pc => pc.staged.bind (fun stage => if stage.reuseStore then some stage.reports else none)

def Call.clone : Call → Option (GoMap String Nat)
  | .configuring _ _ pc => pc.clone
  | _ => none

def RecordReportPc.asks : RecordReportPc → Option String
  | .loop _ (key :: _) => some key
  | _ => none

/-- A condition on the steps of a run: no series is created while a `Configure` call has a copy of
the reports that it will publish. -/
def CloneSafe (w : World Shared Call) : Event Call Nat → Prop
  | .step i => ∀ t ∈ w.calls[i]?, ∀ r ∈ t.reporting, ∀ key ∈ r.pc.asks,
    w.shared.manager.table.reports.lookup key = none → ∀ u ∈ w.calls, u.clone.isNone
  | _ => True

instance (w : World Shared Call) : ∀ e : Event Call Nat, Decidable (CloneSafe w e)
  | .step i => inferInstanceAs (Decidable (∀ t ∈ w.calls[i]?, ∀ r ∈ t.reporting, ∀ key ∈ r.pc.asks, _ → ∀ u ∈ w.calls, _))
  | .call _ | .environment _ => isTrue trivial

namespace Manager

variable {lib : Stdlib} {m : Manager} {a : Action}

theorem act_reports_sub (acquire : ∀ key, a = .acquire key → m.table.reports.lookup key ≠ none)
    (hp : ∀ stage, a ≠ .publishMaps stage) :
    (∀ key ref, (m.act lib a).table.reports.lookup key = some ref → m.table.reports.lookup key = some ref) ∧
      (m.act lib a).table.reports.entries.length ≤ m.table.reports.entries.length := by
  have hs : ∀ {m' : Manager}, m'.table.reports = m.table.reports →
      (∀ key ref, m'.table.reports.lookup key = some ref → m.table.reports.lookup key = some ref) ∧
      m'.table.reports.entries.length ≤ m.table.reports.entries.length := by
    intro _ eq
    rw [eq]
    exact ⟨fun _ _ h => h, le_refl _⟩
  cases a with
  | acquire key =>
    cases ht : m.table.reports.lookup key with
    | none => exact absurd ht (acquire key rfl)
    | some => exact hs (by simp [act, ReportTable.reportSeries, ht])
  | publishMaps stage => exact absurd rfl (hp stage)
  | stageMaps config env => exact hs (stageMaps_step lib config env m).reports
  | stagePolicy now stage spec => exact hs (stagePolicy_step lib now (m, stage) spec).reports
  | rollup =>
    simp only [act, ReportTable.rollupEntry]
    split
    · refine ⟨fun key' ref' h => ?_, GoMap.length_erase_le _ _⟩
      rw [GoMap.lookup_erase_eq] at h
      split at h
      · cases h
      · exact h
    · exact ⟨fun _ _ h => h, le_refl _⟩
  | dropOldest => exact ⟨m.table.dropOldest_trimmed.sub, GoMap.length_eraseKeys_le _ _⟩
  | _ => exact hs rfl

theorem stageMaps_reuse {config : Config} {env : ConfigureEnv} {maps : StageMaps}
    (h : (m.stageMaps lib config env).2 = .ok maps) (hr : maps.reuseStore = true) : maps.reports = m.table.reports := by
  unfold stageMaps at h
  split at h
  · split at h <;> cases h
    rfl
  · split at h <;> cases h
    cases hr

end Manager

structure ConfigurePc.Covers (m : Manager) (pc : ConfigurePc) : Prop where
  staged : ∀ stage ∈ pc.staged, stage.reports.entries.length ≤ maxReportSeries
  small : ∀ clone ∈ pc.clone, clone.entries.length ≤ maxReportSeries
  clone : ∀ clone ∈ pc.clone, ∀ key ref, m.table.reports.lookup key = some ref → clone.lookup key = some ref

def Call.Covers (m : Manager) : Call → Prop
  | .configuring _ _ pc => pc.Covers m
  | _ => True

section Covers

variable {lib : Stdlib} {m m' : Manager} {a : Action}

theorem ConfigurePc.Covers.shrink {pc pc' : ConfigurePc} (hco : pc.Covers m)
    (sub : ∀ key ref, m'.table.reports.lookup key = some ref → m.table.reports.lookup key = some ref)
    (hst : ∀ stage ∈ pc'.staged, ∃ before ∈ pc.staged, stage.reports = before.reports)
    (hcl : ∀ c ∈ pc'.clone, c ∈ pc.clone) : pc'.Covers m' := by
  refine ⟨fun stage hs => ?_, fun c hc => hco.small c (hcl c hc),
    fun c hc key ref ht => hco.clone c (hcl c hc) key ref (sub key ref ht)⟩
  obtain ⟨before, hh, same⟩ := hst stage hs
  rw [same]
  exact hco.staged before hh

theorem ConfigurePc.Covers.none {pc : ConfigurePc} (hst : pc.staged = Option.none) (hcl : pc.clone = Option.none) :
    pc.Covers m := by
  refine ⟨?_, ?_, ?_⟩
  · rw [hst]
    intro _ hs
    cases hs
  · rw [hcl]
    intro c hc
    cases hc
  · rw [hcl]
    intro c hc
    cases hc

theorem Manager.act_reports_length (hs : m.table.reports.entries.length ≤ maxReportSeries)
    (hpu : ∀ stage, a = .publishMaps stage → stage.reports.entries.length ≤ maxReportSeries) :
    (m.act lib a).table.reports.entries.length ≤ maxReportSeries := by
  by_cases hb : ∃ key, a = .acquire key ∧ m.table.reports.lookup key = Option.none
  · obtain ⟨key, rfl, ha⟩ := hb
    simp only [act, ReportTable.reportSeries, ha]
    split
    · exact hs
    next hr =>
      have hf := AList.lookup_eq_none.mp ha
      rw [AList.entries_insert_of_notMem hf]
      exact Nat.lt_of_not_le hr
  · by_cases hp : ∃ stage, a = .publishMaps stage
    · obtain ⟨stage, rfl⟩ := hp
      exact hpu stage rfl
    · refine (act_reports_sub ?_ fun stage eq => hp ⟨stage, eq⟩).2.trans hs
      intro key eq ha
      exact hb ⟨key, eq, ha⟩

theorem ConfigurePc.own_covers {s : Shared} {config : Option Config} {env : ConfigureEnv} {pc pc' : ConfigurePc}
    (hsm : s.manager.table.reports.entries.length ≤ maxReportSeries) (hco : pc.Covers s.manager)
    (h : pc.next lib config env s = some (a, pc')) : pc'.Covers (s.manager.act lib a) := by
  -- a step that keeps the stage
  have hk : ∀ {pc' : ConfigurePc} {a : Action}, a.Unreported → (∀ stage, a ≠ .publishMaps stage) →
      pc'.staged = pc.staged → pc'.clone = pc.clone → pc'.Covers (s.manager.act lib a) := by
    intro _ a hu hp staged clone
    refine hco.shrink (Manager.act_reports_sub ?_ hp).1 ?_ (fun c hc => clone ▸ hc)
    · rintro _ rfl
      exact absurd hu id
    · intro stage hs
      exact ⟨stage, staged ▸ hs, rfl⟩
  cases pc with
  | lock =>
    cases h
    exact .none rfl rfl
  | start =>
    simp only [next] at h
    split at h <;> cases h
    · refine ⟨?_, ?_, ?_⟩
      · rintro _ ⟨⟩
        exact Nat.zero_le _
      · rintro c ⟨⟩
      · rintro c ⟨⟩
    · exact .none rfl rfl
  | stageMaps config =>
    simp only [next] at h
    split at h <;> cases h
    · exact .none rfl rfl
    next maps eq =>
      have same : ∀ c ∈ (openStage config maps).clone, c = s.manager.table.reports := by
        intro c hc
        simp only [clone] at hc
        split at hc <;> cases hc
        next hre => exact Manager.stageMaps_reuse eq hre
      have hr := (Manager.stageMaps_step lib config env s.manager).reports
      refine ⟨?_, fun c hc => ?_, fun c hc key ref ht => ?_⟩
      · rintro _ ⟨⟩
      · rw [same c hc]
        exact hsm
      · rw [same c hc, ← hr]
        exact ht
  | openStage config maps =>
    cases h
    -- the copy was small enough, so the limit takes nothing from it
    have same : ∀ c ∈ (fillStage config s.clock (s.manager.openStage config maps) config.policies).clone,
        c ∈ (openStage config maps).clone := by
      intro c hc
      simp only [clone, staged, Option.bind_some, Manager.openStage] at hc ⊢
      split at hc <;> cases hc
      next hre =>
        rw [if_pos hre]
        have hb := hco.small maps.reports (by simp [clone, hre])
        exact congrArg some (if_pos hb).symm
    refine ⟨?_, fun c hc => hco.small c (same c hc), fun c hc => hco.clone c (same c hc)⟩
    rintro _ ⟨⟩
    exact limitReports_length _ _ _
  | fillStage _ _ stage todo =>
    cases todo with
    | nil =>
      cases h
      exact hk trivial (by rintro stage ⟨⟩) rfl rfl
    | cons =>
      cases h
      refine hco.shrink (Manager.act_reports_sub (by rintro key ⟨⟩) (by rintro stage ⟨⟩)).1 ?_ (fun c hc => hc)
      rintro _ ⟨⟩
      exact ⟨stage, rfl, rfl⟩
  | cleanStage _ _ stage =>
    simp only [next] at h
    split at h <;> cases h
    · exact .none rfl rfl
    · refine hco.shrink (fun _ _ ht => ht) ?_ (fun c hc => hc)
      rintro _ ⟨⟩
      exact ⟨stage, rfl, rfl⟩
  | flushLocked stage _ pc =>
    have hf := pc.next_isFlush s env.flush
    simp only [next] at h
    generalize pc.next env.flush s = step at hf h
    obtain ⟨a', r⟩ := step
    have hp : ∀ stage, a' ≠ .publishMaps stage := by
      rintro _ rfl
      exact hf
    cases r with
    | more =>
      cases h
      exact hk hf.unreported hp rfl rfl
    | done result =>
      cases result with
      | error =>
        cases h
        exact .none rfl rfl
      | ok =>
        cases h
        exact hk hf.unreported hp rfl rfl
  | oldRuntime stage | gate stage old | mu stage old =>
    cases h
    exact hk trivial (by rintro stage ⟨⟩) rfl rfl
  | touch _ _ _ todo => cases todo <;> cases h <;> exact .none rfl rfl
  | returned => cases h
  | _ =>
    cases h
    exact .none rfl rfl

end Covers

theorem Call.clone_held {t : Call} {c : GoMap String Nat} (h : c ∈ t.clone) : Lock.configureMu ∈ t.held := by
  cases t with
  | configuring _ _ pc => cases pc <;> first | exact mem_cons_self | cases h
  | _ => cases h

def coverage : Program.Assertions Shared Call where
  memory s _ := s.manager.table.reports.entries.length ≤ maxReportSeries
  call s _ t := t.Covers s.manager

theorem Call.publishMaps_eq {lib : Stdlib} {s : Shared} {t t' : Call} {stage : Stage}
    (h : t.next lib s = some (.publishMaps stage, t')) :
    ∃ config env old, t = .configuring config env (.publishMaps stage old) := by
  cases step_of_next h with
  | opening step =>
    rcases OpenPc.next_kind step with hsc | hr | ⟨b, eq⟩
    · cases hsc
    · cases hr
    · cases eq
  | recording _ step =>
    cases RecordPc.next_kind step with
    | scan hsc => cases hsc
    | report hr => cases hr
  | waiting _ step =>
    rcases WaitPc.next_kind step with hsc | hr | ⟨_, _, _, eq⟩
    · cases hsc
    · cases hr
    · cases eq
  | closing _ step =>
    rcases ClosePc.next_kind step with hsc | eq | eq
    · cases hsc
    · cases eq
    · cases eq
  | configuring step =>
    cases ConfigurePc.next_kind step with
    | flush hf => cases hf
    | stage hs => cases hs
    | publishMaps => exact ⟨_, _, _, rfl⟩
  | flushing step => cases FlushPc.next_isFlush step

theorem CloneSafe.acquire {lib : Stdlib} {w : World Shared Call} {i : Nat} {t t' : Call} {key : String}
    (hs : CloneSafe w (.step i)) (hh : w.calls[i]? = some t) (hn : t.next lib w.shared = some (.acquire key, t'))
    (ha : w.shared.manager.table.reports.lookup key = none) : ∀ u ∈ w.calls, u.clone = none := by
  obtain ⟨r, _, _, hr, pc⟩ := acquire_reporting hn
  intro u hu
  exact Option.isNone_iff_eq_none.mp (hs t hh r hr key (by rw [pc]; rfl) ha u hu)

theorem coverage_outline (lib : Stdlib) : (trafficControl lib).Outline CloneSafe coverage where
  entry := by
    intro w t hh _ he
    refine ⟨hh.1, ?_⟩
    change entry w.shared t = true at he
    unfold entry at he
    split at he
    · trivial
    · exact .none rfl rfl
    all_goals trivial
  environment hh _ := hh
  own := by
    intro w i t a _ hh _ step
    have hco := hh.2 i t step.here
    have hs : (w.shared.manager.act lib a).table.reports.entries.length ≤ maxReportSeries := by
      apply Manager.act_reports_length hh.1
      rintro stage rfl
      obtain ⟨_, _, _, rfl⟩ := publishMaps_eq step.next
      exact ConfigurePc.Covers.staged hco stage rfl
    refine ⟨hs, ?_⟩
    cases step_of_next step.next with
    | configuring hta => exact ConfigurePc.own_covers hh.1 hco hta
    | _ => trivial
  stable := by
    intro w i j t u a _ hh hm step ht _ hap
    have hco := hh.2 j u ht
    cases u with
    | configuring config env pc =>
      have mine := hco
      -- a call with a stage or a copy holds the lock that a publication needs
      have hl : Lock.configureMu ∈ (configuring config env pc).held → ∀ stage, a ≠ .publishMaps stage := by
        rintro held _ rfl
        obtain ⟨_, _, _, rfl⟩ := publishMaps_eq step.next
        have hcl := hap .configureMu (by simp [trafficControl, Call.held, ConfigurePc.held]) .configureMu held
        cases hcl
      refine ⟨mine.staged, mine.small, fun c hc key ref live => ?_⟩
      refine mine.clone c hc key ref ((Manager.act_reports_sub ?_ (hl (clone_held hc))).1 key ref live)
      rintro _ rfl ha
      have hn := hm.acquire step.here step.next ha _ (mem_of_getElem? ht)
      rw [show (configuring config env pc).clone = pc.clone from rfl] at hn
      rw [hn] at hc
      cases hc
    | _ => trivial

end AsterCore
