import AsterCore.TrafficReload
import AsterCore.TrafficDated
import AsterCore.TrafficKeyAccount
import AsterCore.TrafficReportRun

namespace AsterCore

open List ReportTable Manager ReportSeries Call

/-- When a series that has nothing left to keep is rolled up, nobody is about to write to it, and
nobody is going to write to an hour that the rollup closes. -/
def RollupSafe (w : World Shared Call) (x : SeriesRollup) : Prop :=
  ∀ u ∈ w.calls,
    (u.holding = some (x.key, x.ref) → ¬ (w.shared.manager.table.series x.ref).Expired x.reports x.now) ∧
    ∀ e ∈ u.dated, e.1 = x.key → ((w.shared.manager.table.series x.ref).hourly.lookup (hourStart e.2)).isSome →
      hourStart x.now ≤ hourStart e.2

instance (w : World Shared Call) (x : SeriesRollup) : Decidable (RollupSafe w x) :=
  inferInstanceAs (Decidable (∀ u ∈ w.calls, _ ∧ ∀ e ∈ u.dated, _))

/-- A condition on the steps of a run: nothing is configured, no flush runs into the size limit of the
store, and no rollup meets a report call that it disturbs. -/
def ReportSafe (w : World Shared Call) : Event Call Nat → Prop
  | .call (.configuring _ _ _) => False
  | .call (.flushing env _) => env.save ≠ .overLimit
  | .step i => ∀ t ∈ w.calls[i]?, ∀ x ∈ t.rolls, RollupSafe w x
  | _ => True

instance : ∀ (w : World Shared Call) (e : Event Call Nat), Decidable (ReportSafe w e)
  | _, .call (.configuring _ _ _) => isFalse id
  | _, .call (.flushing env _) => inferInstanceAs (Decidable (env.save ≠ .overLimit))
  | w, .step i => inferInstanceAs (Decidable (∀ t ∈ w.calls[i]?, ∀ x ∈ t.rolls, RollupSafe w x))
  | _, .environment _ | _, .call (.opening _ _) | _, .call (.recording _ _ _ _) | _, .call (.waiting _ _ _)
  | _, .call (.closing _ _) => isTrue trivial

def Call.returned : Call → Bool
  | .opening _ (.returned _) | .recording _ _ _ (.returned _) | .waiting _ _ .returned | .closing _ .returned
  | .configuring _ _ (.returned _) | .flushing _ (.returned _) => true
  | _ => false

/-- A flush works with the published configuration and under a time that has passed. While it rolls up
the series it has the map for itself. -/
def FlushLockedPc.Rolls (reports : ReportsConfig) (s : Shared) : FlushLockedPc → Prop
  | .config now => now ≤ s.clock
  | .clean given now _ | .lock given now => given = reports ∧ now ≤ s.clock
  | .rollup given now todo => given = reports ∧ now ≤ s.clock ∧
    (∀ e ∈ todo, s.manager.table.reports.lookup e.1 = some e.2) ∧ (todo.map Sigma.fst).Nodup
  | .trim _ _ | .trimSave _ _ => False
  | _ => True

def FlushPc.Rolls (reports : ReportsConfig) (s : Shared) : FlushPc → Prop
  | .flushLocked pc => pc.Rolls reports s
  | _ => True

def Call.Rolls (reports : ReportsConfig) (s : Shared) : Call → Prop
  | .flushing _ (.returned _) => True
  | .flushing env pc => env.save ≠ .overLimit ∧ pc.Rolls reports s
  | .configuring _ _ pc => ∃ result, pc = .returned result
  | _ => True

/-- A call that writes for an hour that is not rolled up yet, to a series that is in the map. -/
structure Call.Timely (reports : ReportsConfig) (s : Shared) (t : Call) : Prop where
  dated : ∀ e ∈ t.dated, (s.manager.table.seriesAt e.1).isRolled (hourStart e.2) = false
  holding : ∀ x ∈ t.holding, s.manager.table.reports.lookup x.1 = some x.2
  rolls : t.Rolls reports s

def ReportEntry.logged (e : ReportEntry) : String × Nat × ReportIncrement := (e.key, e.now, e.increment)

structure Accounts (config : Config) (start s : Shared) : Prop where
  wellFormed : s.manager.table.WellFormed
  configured : s.manager.runtime.config = some config
  written : ∃ entries, s.written = start.written ++ entries ∧ ∀ key,
    KeyAccount config.reports s.clock (start.manager.table.seriesAt key) (s.manager.table.seriesAt key)
      (logOf (entries.map ReportEntry.logged) key)

def visibility (config : Config) (start : Shared) : Program.Assertions Shared Call where
  memory s _ := Accounts config start s
  call s _ t := t.Timely config.reports s

section Steps

variable {lib : Stdlib} {s : Shared} {reports : ReportsConfig}

inductive TableStep (reports : ReportsConfig) (s : Shared) (t : Call) : Action → Prop
  | plain {a : Action} (h : a.Plain) : TableStep reports s t a
  | acquire (key : String) : TableStep reports s t (.acquire key)
  | bump {key : String} {ref now : Nat} (increment : ReportIncrement) (held : t.holding = some (key, ref))
    (dated : (key, now) ∈ t.dated) : TableStep reports s t (.bump key ref now increment)
  | rollup {now : Nat} {key : String} {ref : Nat} (rolls : t.rolls = some ⟨reports, now, key, ref⟩) (past : now ≤ s.clock)
    (there : s.manager.table.reports.lookup key = some ref) : TableStep reports s t (.rollup reports now key ref)

theorem FlushLockedPc.next_table (env : FlushEnv) {pc : FlushLockedPc} (hr : pc.Rolls reports s) :
    TableStep reports s (.flushing env (.flushLocked pc)) (pc.next env s).1 := by
  cases pc with
  | start =>
    simp only [next]
    split <;> exact .plain trivial
  | clean _ _ todo =>
    cases todo with
    | nil => exact .plain trivial
    | cons =>
      simp only [next]
      split <;> exact .plain trivial
  | rollup _ _ todo =>
    cases todo with
    | nil => exact .plain trivial
    | cons e =>
      obtain ⟨rfl, hp, ht, _⟩ := hr
      exact .rollup rfl hp (ht e mem_cons_self)
  | save =>
    simp only [next]
    split <;> exact .plain trivial
  | trim now i | trimSave now i => exact hr.elim
  | _ => exact .plain trivial

variable {a : Action}

theorem Call.next_table {t t' : Call} (hro : t.Rolls reports s) (h : t.next lib s = some (a, t')) :
    TableStep reports s t a := by
  have hr : a.IsReport → TableStep reports s t a := by
    intro hk
    cases a with
    | look => exact .plain trivial
    | acquire key => exact .acquire key
    | bump _ _ _ increment =>
      obtain ⟨hh, hd⟩ := next_bump h
      exact .bump increment hh hd
    | _ => exact hk.elim
  cases step_of_next h with
  | opening step =>
    rcases OpenPc.next_kind step with hs | reports | ⟨b, rfl⟩
    · exact .plain hs.plain
    · exact hr reports
    · exact .plain trivial
  | recording _ step =>
    cases RecordPc.next_kind step with
    | scan hs => exact .plain hs.plain
    | report reports => exact hr reports
    | _ => exact .plain trivial
  | waiting _ step =>
    rcases WaitPc.next_kind step with hs | reports | ⟨_, _, _, rfl⟩
    · exact .plain hs.plain
    · exact hr reports
    · exact .plain trivial
  | closing _ step =>
    rcases ClosePc.next_kind step with hs | rfl | rfl
    · exact .plain hs.plain
    · exact .plain trivial
    · exact .plain trivial
  | configuring step =>
    obtain ⟨_, rfl⟩ := hro
    cases step
  | @flushing env pc _ _ step =>
    cases pc with
    | lock =>
      cases step
      exact .plain trivial
    | flushLocked pc =>
      have ht := FlushLockedPc.next_table env hro.2
      simp only [FlushPc.next] at step
      generalize pc.next env s = taken at ht step
      obtain ⟨_, rest⟩ := taken
      cases rest <;> cases step <;> exact ht
    | returned => cases step

theorem Action.Plain.writes (h : a.Plain) : a.writes = [] := by
  cases a <;> first | rfl | exact h.elim

theorem TableStep.runtime {t : Call} (hs : TableStep reports s t a) : (s.manager.act lib a).runtime = s.manager.runtime := by
  cases hs with
  | @plain a h => cases a <;> first | rfl | exact h.elim
  | _ => rfl

end Steps

section Outline

variable {lib : Stdlib} {w : World Shared Call} {i : Nat} {t : Call} {a : Action} {reports : ReportsConfig}

theorem seriesAt_eq {table : ReportTable} {key : String} {ref : Nat} (ht : table.reports.lookup key = some ref) :
    table.seriesAt key = table.series ref := by
  unfold seriesAt
  rw [ht]

theorem Manager.acquire_seriesAt {m : Manager} (wf : m.table.WellFormed) {key other : String} :
    (m.act lib (.acquire key)).table.seriesAt other = m.table.seriesAt other := by
  have hf : m.table.reportSeries key = ((m.table.reportSeries key).1, (m.table.reportSeries key).2) := rfl
  exact reportSeries_seriesAt wf hf other

variable {u : Call} {config : Config}

theorem TableStep.dated (step : TableStep reports w.shared t a) (wf : w.shared.manager.table.WellFormed)
    (safe : ∀ x ∈ t.rolls, RollupSafe w x) (own : t.Timely reports w.shared) (hm : u ∈ w.calls) {e : String × Nat}
    (he : e ∈ u.dated) (hio : (w.shared.manager.table.seriesAt e.1).isRolled (hourStart e.2) = false) :
    ((w.shared.manager.act lib a).table.seriesAt e.1).isRolled (hourStart e.2) = false := by
  cases step with
  | plain plain =>
    rw [plain.table]
    exact hio
  | acquire =>
    rw [acquire_seriesAt wf]
    exact hio
  | @bump key ref now increment hh =>
    have ht := own.holding _ hh
    rw [show (w.shared.manager.act lib (.bump key ref now increment)).table =
      w.shared.manager.table.bumpSeries ref now increment from rfl, bumpSeries_seriesAt wf ht]
    split
    next hs =>
      rw [hs] at hio
      exact hio
    · exact hio
  | @rollup now key ref hr _ ht =>
    rw [show (w.shared.manager.act lib (.rollup reports now key ref)).table =
      w.shared.manager.table.rollupEntry reports now key ref from rfl, rollupEntry_seriesAt wf ht]
    split
    next hs =>
      rw [hs, seriesAt_eq ht] at hio
      rw [seriesAt_eq ht]
      split
      · rfl
      next =>
        -- a mark that is new belongs to an hour that the rollup closes
        cases mark : ((w.shared.manager.table.series ref).rollupAndPrune reports now).isRolled (hourStart e.2) with
        | false => rfl
        | true =>
          rcases rollup_rolled mark with was | ⟨hp, hea⟩
          · rw [hio] at was
            cases was
          · have hl := (safe _ hr u hm).2 e he hs hp
            exact absurd hea (Int.not_lt.mpr hl)
    · exact hio

theorem TableStep.holding (step : TableStep reports w.shared t a) (hh : durationDay ≤ reports.hourlyRetention)
    (safe : ∀ x ∈ t.rolls, RollupSafe w x) (hm : u ∈ w.calls) {x : String × Nat} (hx : u.holding = some x)
    (hl : w.shared.manager.table.reports.lookup x.1 = some x.2) :
    (w.shared.manager.act lib a).table.reports.lookup x.1 = some x.2 := by
  cases step with
  | plain plain =>
    rw [plain.table]
    exact hl
  | acquire =>
    refine act_keeps hl rfl ?_
    rintro _ ⟨⟩
  | bump => exact hl
  | @rollup now key ref hr _ ht =>
    refine act_keeps hl ?_ ?_
    · -- the series would have to be empty
      simp only [Action.takesKey, Bool.and_eq_false_iff, beq_eq_false_iff_ne]
      by_cases hs : key = x.1
      · refine .inr ?_
        have ref_eq : ref = x.2 := by
          rw [hs, hl] at ht
          exact (Option.some.inj ht).symm
        cases he : ((w.shared.manager.table.series ref).rollupAndPrune reports now).isEmpty with
        | false => rfl
        | true =>
          have hk := (safe _ hr u hm).1 (by rw [hx, hs, ref_eq])
          exact absurd (expired_of_rollup hh he) hk
      · exact .inl hs
    · rintro _ ⟨⟩

theorem TableStep.accounts {start : Shared} (step : TableStep config.reports w.shared t a)
    (hh : durationDay ≤ config.reports.hourlyRetention) (hac : Accounts config start w.shared)
    (own : t.Timely config.reports w.shared) : Accounts config start (w.shared.perform lib i a) := by
  have wf := hac.wellFormed
  have hc : (w.shared.perform lib i a).manager.runtime.config = some config := by
    rw [← hac.configured]
    exact congrArg _ step.runtime
  obtain ⟨entries, hw, ha⟩ := hac.written
  cases step with
  | @plain a plain =>
    have hs : (w.shared.perform lib i a).manager.table = w.shared.manager.table := plain.table
    refine ⟨hs ▸ wf, hc, entries, ?_, ?_⟩
    · rw [Shared.perform_written, hw, plain.writes, append_nil]
    · rw [hs]
      exact ha
  | acquire key =>
    refine ⟨reportSeries_wellFormed wf rfl, hc, entries, hw, fun other => ?_⟩
    rw [show (w.shared.perform lib i (.acquire key)).manager = w.shared.manager.act lib (.acquire key) from rfl,
      acquire_seriesAt wf]
    exact ha other
  | @bump key ref now increment held hd =>
    have ht := own.holding _ held
    have hio := own.dated (key, now) hd
    refine ⟨bumpSeries_wellFormed wf ref now increment, hc, entries ++ [⟨key, ref, now, increment⟩],
      ?_, fun other => ?_⟩
    · rw [Shared.perform_written, hw, Action.writes, append_assoc]
    · rw [show (w.shared.perform lib i (.bump key ref now increment)).manager.table =
        w.shared.manager.table.bumpSeries ref now increment from rfl, bumpSeries_seriesAt wf ht,
        map_append, map_singleton, ReportEntry.logged, logOf_concat]
      split
      next hs =>
        rw [hs]
        exact (ha key).bump increment hio
      · exact ha other
  | @rollup now key ref _ hp ht =>
    refine ⟨rollupEntry_wellFormed wf _ now key ref, hc, entries, hw, fun other => ?_⟩
    rw [show (w.shared.perform lib i (.rollup config.reports now key ref)).manager.table =
      w.shared.manager.table.rollupEntry config.reports now key ref from rfl, rollupEntry_seriesAt wf ht]
    split
    next hs =>
      rw [hs]
      have hr := (ha key).rollup hp hh
      split
      next he => exact hr.removed he key
      · exact hr
    · exact ha other

variable {s : Shared}

theorem FlushLockedPc.own_rolls {env : FlushEnv} {pc pc' : FlushLockedPc}
    (hc : s.manager.runtime.config = some config) (hs : env.save ≠ .overLimit) (hr : pc.Rolls config.reports s)
    (h : pc.next env s = (a, .more pc')) : pc'.Rolls config.reports (s.perform lib i a) := by
  cases pc with
  | start =>
    simp only [next] at h
    split at h <;> cases h
    trivial
  | clock =>
    cases h
    exact le_refl _
  | config =>
    simp only [next, hc] at h
    cases h
    exact ⟨rfl, hr⟩
  | clean _ _ todo =>
    cases todo with
    | nil =>
      cases h
      exact hr
    | cons =>
      cases h
      exact hr
  | lock =>
    cases h
    exact ⟨hr.1, hr.2, fun e he => GoMap.mem_entries_iff.mp he, s.manager.table.reports.keys_nodup⟩
  | rollup _ _ todo =>
    cases todo with
    | nil =>
      cases h
      trivial
    | cons e =>
      cases h
      obtain ⟨rfl, hp, ht, hd⟩ := hr
      obtain ⟨hf, hd⟩ := nodup_cons.mp hd
      refine ⟨rfl, hp, fun x hx => act_keeps (ht x (mem_cons_of_mem _ hx)) ?_ ?_, hd⟩
      · have ho : e.1 ≠ x.1 := fun same => hf (same ▸ mem_map_of_mem hx)
        simp [Action.takesKey, ho]
      · rintro _ ⟨⟩
  | save =>
    simp only [next] at h
    split at h
    · cases h; trivial
    · cases h; trivial
    · cases h; trivial
    next hl => exact absurd hl hs
  | trim now i | trimSave now i => exact hr.elim
  | _ => cases h

theorem Call.own_rolls {t' : Call} (hc : s.manager.runtime.config = some config)
    (hr : t.Rolls config.reports s) (h : t.next lib s = some (a, t')) : t'.Rolls config.reports (s.perform lib i a) := by
  cases step_of_next h with
  | configuring hs =>
    obtain ⟨_, rfl⟩ := hr
    cases hs
  | @flushing _ pc _ _ hs =>
    cases pc with
    | lock =>
      cases hs
      exact ⟨hr.1, trivial⟩
    | flushLocked =>
      simp only [FlushPc.next] at hs
      split at hs <;> cases hs
      next eq => exact ⟨hr.1, FlushLockedPc.own_rolls hc hr.1 hr.2 eq⟩
      · trivial
    | returned => cases hs
  | _ => trivial

theorem Call.reporting_takes {r : ReportCall} (h : t.reporting = some r) : ∀ l ∈ r.pc.takes, l ∈ t.takes := by
  have hb : ∀ {k : Nat} {pc : CurrentBindingPc}, pc.reporting = some r → ∀ l ∈ r.pc.takes, l ∈ pc.takes k := by
    intro k pc hh
    cases pc <;> cases hh
    exact fun l hl => hl
  cases t with
  | opening _ pc =>
    cases pc <;> cases h
    exact fun l hl => hl
  | recording _ _ _ pc =>
    cases pc with
    | currentBinding => exact hb h
    | _ =>
      cases h
      try exact fun l hl => hl
  | waiting _ _ pc =>
    cases pc with
    | currentBinding => exact hb h
    | _ => cases h
  | _ => cases h

theorem TableStep.locked {t' : Call} (hs : TableStep reports s t a) (h : t.next lib s = some (a, t')) :
    (s.manager.act lib a).table.reports = s.manager.table.reports ∨ Lock.reportsMu ∈ t.held ++ t.takes := by
  cases hs with
  | plain plain => exact .inl (by rw [plain.table])
  | acquire =>
    obtain ⟨r, _, _, hr, pc⟩ := acquire_reporting h
    refine .inr (mem_append_right _ (reporting_takes hr _ ?_))
    rw [pc]
    exact mem_cons_self
  | bump => exact .inl rfl
  | rollup hro =>
    refine .inr (mem_append_left _ ?_)
    unfold rolls at hro
    split at hro
    · exact mem_cons_of_mem _ mem_cons_self
    · cases hro

theorem Call.Rolls.stable {s' : Shared} (hr : u.Rolls reports s) (hc : s.clock ≤ s'.clock)
    (hk : Lock.reportsMu ∈ u.held → s'.manager.table.reports = s.manager.table.reports) : u.Rolls reports s' := by
  cases u with
  | flushing _ pc =>
    cases pc with
    | flushLocked pc =>
      obtain ⟨hs, hr⟩ := hr
      refine ⟨hs, ?_⟩
      cases pc with
      | config => exact le_trans hr hc
      | clean given now todo | lock given now => exact ⟨hr.1, le_trans hr.2 hc⟩
      | rollup =>
        obtain ⟨same, hp, ht, hd⟩ := hr
        have reports := hk (mem_cons_of_mem _ mem_cons_self)
        refine ⟨same, le_trans hp hc, ?_, hd⟩
        rw [reports]
        exact ht
      | _ => exact hr
    | _ => exact hr
  | _ => exact hr

theorem Call.Timely.idle (hd : t.dated = []) (hh : t.holding = none) (hr : t.Rolls reports s) : t.Timely reports s :=
  ⟨by simp [hd], by simp [hh], hr⟩

theorem Call.Timely.entry (hen : t.entry s = true) (hs : ReportSafe w (.call t)) : t.Timely reports s := by
  unfold Call.entry at hen
  split at hen
  · exact .idle rfl rfl trivial
  · exact hs.elim
  · exact .idle rfl rfl ⟨hs, trivial⟩
  all_goals first | exact .idle rfl rfl trivial | cases hen

theorem visibility_outline (lib : Stdlib) (hh : durationDay ≤ config.reports.hourlyRetention)
    (start : Shared) : (trafficControl lib).Outline ReportSafe (visibility config start) where
  entry := by
    intro w t hho hs hen
    exact ⟨hho.1, Call.Timely.entry hen hs⟩
  environment := by
    intro w d hho _
    obtain ⟨wf, hc, entries, hw, ha⟩ := hho.1
    refine ⟨⟨wf, hc, entries, hw, fun key => (ha key).later (Nat.le_add_right _ _)⟩, fun i t here => ?_⟩
    have ht := hho.2 i t here
    exact ⟨ht.dated, ht.holding, ht.rolls.stable (Nat.le_add_right _ _) (fun _ => rfl)⟩
  own := by
    intro w i t a t' hho hs step
    have ht := hho.2 i t step.here
    have hn := step.next
    have hs := hs t step.here
    have hm := mem_of_getElem? step.here
    have hta := next_table ht.rolls hn
    have hac : Accounts config start (w.shared.perform lib i a) := hta.accounts hh hho.1 ht
    refine ⟨hac, fun e he => ?_, fun x hx => ?_, own_rolls hho.1.configured ht.rolls hn⟩
    · rcases next_dated hn e he with old | now
      · exact hta.dated hho.1.wellFormed hs ht hm old (ht.dated e old)
      · -- the hour of the clock is not over
        obtain ⟨_, _, ha⟩ := hac.written
        cases mark : ((w.shared.perform lib i a).manager.table.seriesAt e.1).isRolled (hourStart e.2) with
        | false => exact mark
        | true =>
          have hea := (ha e.1).rolled _ mark
          rw [now] at hea
          exact absurd hea (lt_irrefl _)
    · obtain ⟨rfl, hf⟩ := next_holding hn x hx
      exact reportSeries_found (Prod.ext rfl hf)
  stable := by
    intro w i j t u a t' hho hs step hth _ hap
    have ht := hho.2 i t step.here
    have ho := hho.2 j u hth
    have hn := step.next
    have hs := hs t step.here
    have hm := mem_of_getElem? hth
    have hta := next_table ht.rolls hn
    refine ⟨fun e he => ?_, fun x hx => ?_, ho.rolls.stable le_rfl fun held => ?_⟩
    · exact hta.dated hho.1.wellFormed hs ht hm he (ho.dated e he)
    · exact hta.holding hh hs hm hx (ho.holding x hx)
    · rcases hta.locked hn with same | hl
      · exact same
      · have hcl := hap _ hl _ held
        cases hcl

theorem Call.Timely.returned (hr : t.returned = true) (s : Shared) : t.Timely reports s := by
  unfold Call.returned at hr
  split at hr
  all_goals first | exact .idle rfl rfl trivial | exact .idle rfl rfl ⟨_, rfl⟩ | cases hr

end Outline

/-- From a state in which no call is in progress: in a run whose steps are safe, all that was written
to any series is shown by `Reports`, for the hour, for the day and for the month of its time, as long
as the retention keeps them, together with what was shown before. -/
theorem written_reports_visible {lib : Stdlib} {clock : Nat} {before events : List (Event Call Nat)}
    {v w : World Shared Call} {config : Config} {raw : RawReportsConfig}
    (reached : (trafficControl lib).run (newWorld clock) before = some v) (idle : ∀ t ∈ v.calls, t.returned = true)
    (configured : v.shared.manager.runtime.config = some config) (accepted : parseReports lib raw = .ok config.reports)
    (past : ∀ key h, (v.shared.manager.table.seriesAt key).isRolled h = true → h < hourStart v.shared.clock)
    (safe : (trafficControl lib).Along ReportSafe v events) (run : (trafficControl lib).run v events = some w) :
    ∃ entries, w.shared.written = v.shared.written ++ entries ∧
      ∀ e ∈ entries, ∀ g : Granularity, unixBefore w.shared.clock (g.retention config.reports) ≤ g.bucket e.now →
        ∀ from_ ≤ g.bucket e.now, ∀ to_ > g.bucket e.now,
          ⟨g.bucket e.now, (v.shared.manager.table.seriesAt e.key).value g (g.bucket e.now) +
            g.total (logOf (entries.map ReportEntry.logged) e.key) (g.bucket e.now)⟩ ∈
              w.shared.manager.table.query e.key g from_ to_ := by
  have hh := (parseReports_accepted accepted).hourly.1
  have hs := (soundness_outline lib (fun _ _ => True)).run (soundness_newWorld lib clock)
    (Program.along_true _ before) reached
  have hst : (visibility config v.shared).Holds v := by
    refine ⟨⟨hs.2.1.table, configured, [], (append_nil _).symm, fun key => .start (past key)⟩, fun i t here => ?_⟩
    exact Call.Timely.returned (idle t (mem_of_getElem? here)) _
  obtain ⟨_, _, entries, written, ha⟩ :=
    ((visibility_outline lib hh v.shared).run ⟨hs.1, hst⟩ safe run).2.1
  refine ⟨entries, written, fun e he g hn from_ haf to_ before => ?_⟩
  have logged : (e.now, e.increment) ∈ logOf (entries.map ReportEntry.logged) e.key := by
    simp only [logOf, mem_map, mem_filter, decide_eq_true_eq]
    exact ⟨e.logged, ⟨⟨e, he, rfl⟩, rfl⟩, rfl⟩
  have value := (ha e.key).value g _ hn
  have hp := (ha e.key).present _ logged g hn
  unfold query
  cases ht : w.shared.manager.table.reports.lookup e.key with
  | none =>
    rw [show w.shared.manager.table.seriesAt e.key = { key := e.key } by unfold seriesAt; rw [ht]] at hp
    exact absurd hp (not_present_of_isEmpty rfl)
  | some =>
    rw [seriesAt_eq ht] at value hp
    obtain ⟨c, hf⟩ := Option.isSome_iff_exists.mp hp
    unfold ReportSeries.value at value
    rw [hf] at value
    exact mem_buckets.mpr ⟨hf.trans (congrArg some value), haf, before⟩

/-- A session is opened, 10 bytes are recorded, and an hour later a flush rolls them up. -/
def recordAndFlush : List (Event Call Nat) :=
  [.call (.opening {} .runtime)] ++ List.replicate 11 (.step 1) ++ [.call (.recording 0 .upload 10 .start)] ++
    List.replicate 15 (.step 2) ++ [.environment 3600000000000, .call (.flushing {} .lock)] ++ List.replicate 12 (.step 3)

set_option maxRecDepth 4000 in
theorem written_reports_visible_flushed : ∃ v w, (trafficControl idleStdlib).run (newWorld 1785542400000000000)
        ([.call (.configuring (some idleConfig) {} .lock)] ++ List.replicate 19 (.step 0)) = some v ∧
      (trafficControl idleStdlib).run v recordAndFlush = some w ∧
      w.shared.written = [⟨"global:global", 0, 1785542400000000000, .connections 1⟩,
        ⟨"global:global", 0, 1785542400000000000, .transfer .upload 10⟩] ∧
      ⟨1785542400, { uploadBytes := 10, connections := 1 }⟩ ∈
        w.shared.manager.table.query "global:global" .day 1785542400 1785628800 := by
  obtain ⟨v, w, hr, run, hi, hc, he, hf, safe, hcl, written⟩ : ∃ v w,
      (trafficControl idleStdlib).run (newWorld 1785542400000000000)
        ([.call (.configuring (some idleConfig) {} .lock)] ++ replicate 19 (.step 0)) = some v ∧
      (trafficControl idleStdlib).run v recordAndFlush = some w ∧ (∀ t ∈ v.calls, t.returned = true) ∧
      v.shared.manager.runtime.config.map Config.reports = some idleConfig.reports ∧
      v.shared.manager.table.reports.entries = [] ∧ v.shared.written = [] ∧
      (trafficControl idleStdlib).Along ReportSafe v recordAndFlush ∧ w.shared.clock = 1785546000000000000 ∧
      w.shared.written = [⟨"global:global", 0, 1785542400000000000, .connections 1⟩,
        ⟨"global:global", 0, 1785542400000000000, .transfer .upload 10⟩] :=
    Program.exists_of_any_any (by decide +kernel)
  obtain ⟨config, hc, same⟩ := Option.map_eq_some_iff.mp hc
  have ha : parseReports idleStdlib {} = .ok config.reports := by
    rw [same]
    decide
  have hs : ∀ key, v.shared.manager.table.seriesAt key = { key := key } := by
    intro _
    unfold seriesAt
    split
    · rfl
    next ht =>
      have mem := GoMap.mem_entries_iff.mpr ht
      rw [he] at mem
      cases mem
  obtain ⟨_, eq, hv⟩ := written_reports_visible hr hi hc ha
    (fun key h hro => by rw [hs] at hro; cases hro) safe run
  rw [written, hf] at eq
  subst eq
  have hsh := hv ⟨"global:global", 0, 1785542400000000000, .transfer .upload 10⟩ (by simp) .day
    (by rw [hcl, same]; decide) 1785542400 (by decide) 1785628800 (by decide)
  rw [hs] at hsh
  exact ⟨v, w, hr, run, written, hsh⟩

/-- A session was idle for three days. A `Record` call has its series in hand, a flush finds nothing to
keep in it and removes it, and the call writes 10 bytes to it. -/
def recordToRemoved : List (Event Call Nat) :=
  [.environment 259200000000000, .call (.recording 0 .upload 10 .start)] ++ List.replicate 12 (.step 2) ++
    [.call (.flushing {} .lock)] ++ List.replicate 12 (.step 3) ++ List.replicate 3 (.step 2)

/-- A `Record` call has read the clock, the hour ends, a flush rolls that hour up, and the call writes
its 10 bytes to it. -/
def recordToRolled : List (Event Call Nat) :=
  [.call (.recording 0 .upload 10 .start)] ++ List.replicate 8 (.step 2) ++
    [.environment 3600000000000, .call (.flushing {} .lock)] ++ List.replicate 12 (.step 3) ++ List.replicate 7 (.step 2)

set_option maxRecDepth 4000 in
/-- In the first run the bytes are not shown at all, in the second run not for the day. -/
theorem written_report_lost :
    (∃ v w, (trafficControl idleStdlib).run (newWorld 1785542400000000000) (openingRun dailyConfig 11) = some v ∧
      (trafficControl idleStdlib).run v recordToRemoved = some w ∧ (∀ t ∈ w.calls, t.returned = true) ∧
      w.shared.written = v.shared.written ++ [⟨"global:global", 0, 1785801600000000000, .transfer .upload 10⟩] ∧
      unixBefore w.shared.clock dailyConfig.reports.hourlyRetention ≤ 1785801600 ∧
      w.shared.manager.table.query "global:global" .hour 1785801600 1785805200 = []) ∧
    ∃ v w, (trafficControl idleStdlib).run (newWorld 1785542400000000000) (openingRun idleConfig 11) = some v ∧
      (trafficControl idleStdlib).run v recordToRolled = some w ∧ (∀ t ∈ w.calls, t.returned = true) ∧
      w.shared.written = v.shared.written ++ [⟨"global:global", 0, 1785542400000000000, .transfer .upload 10⟩] ∧
      unixBefore w.shared.clock idleConfig.reports.dailyRetention ≤ 1785542400 ∧
      w.shared.manager.table.query "global:global" .day 1785542400 1785628800 =
        [⟨1785542400, { connections := 1 }⟩] := by
  exact ⟨Program.exists_of_any_any (by decide +kernel), Program.exists_of_any_any (by decide +kernel)⟩

end AsterCore
