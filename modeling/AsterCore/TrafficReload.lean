import AsterCore.TrafficClones
import AsterCore.TrafficKeyAccount
import AsterCore.TrafficRegistered

namespace AsterCore

open List ReportSeries ReportTable AsterCore.Action Program

/-- All that happens to a series: report calls add to it, rollups move and prune what it has. -/
inductive SeriesOp
  | bump (now : Nat) (increment : ReportIncrement)
  | rollup (reports : ReportsConfig) (now : Nat)

def ReportSeries.apply (series : ReportSeries) : SeriesOp → ReportSeries
  | .bump now increment => series.bump now increment
  | .rollup reports now => series.rollupAndPrune reports now

def SeriesOp.added : SeriesOp → Option (Nat × ReportIncrement)
  | .bump now increment => some (now, increment)
  | .rollup _ _ => none

namespace Action

def onSeries (ref : Nat) : Action → List SeriesOp
  | .bump _ target now increment => if target = ref then [.bump now increment] else []
  | .rollup reports now _ target => if target = ref then [.rollup reports now] else []
  | _ => []

def writes : Action → List ReportEntry
  | .bump key ref now increment => [⟨key, ref, now, increment⟩]
  | _ => []

/-- The actions that may take a key from the reports: a rollup that leaves nothing of its series, the
trimming of a store that is too large, and the publication of another store. -/
def takesKey (key : String) (m : Manager) : Action → Bool
  | .rollup reports now target ref => target == key && ((m.table.series ref).rollupAndPrune reports now).isEmpty
  | .dropOldest => (m.table.dropOldest.reports.lookup key).isNone
  | .publishMaps stage => !stage.reuseStore
  | _ => false

end Action

namespace Manager

variable {lib : Stdlib} {m : Manager} {a : Action}

theorem act_freshSeries : m.table.fresh ≤ (m.act lib a).table.fresh := by
  cases a with
  | acquire key => exact m.table.reportSeries_fresh key
  | stageMaps config env => exact (stageMaps_step lib config env m).freshSeries
  | stagePolicy now stage spec => exact (stagePolicy_step lib now (m, stage) spec).freshSeries
  | _ => exact le_refl _

theorem act_series {ref : Nat} (ht : ref < m.table.fresh) :
    (m.act lib a).table.series ref = (a.onSeries ref).foldl ReportSeries.apply (m.table.series ref) := by
  cases a with
  | acquire =>
    simp only [act, reportSeries]
    split
    · rfl
    · split
      · rfl
      · exact Function.update_of_ne (Nat.ne_of_lt ht) _ _
  | bump _ target =>
    by_cases hs : target = ref
    · subst hs
      simp [act, ReportTable.bumpSeries, Action.onSeries, ReportSeries.apply]
    · simp [act, bumpSeries, onSeries, hs, Function.update_of_ne (Ne.symm hs)]
  | rollup _ _ _ target =>
    by_cases hs : target = ref
    · subst hs
      simp [act, ReportTable.rollupEntry, Action.onSeries, ReportSeries.apply]
    · simp [act, rollupEntry, onSeries, hs, Function.update_of_ne (Ne.symm hs)]
  | stageMaps config env => exact (stageMaps_step lib config env m).series ref ht
  | stagePolicy now stage spec => exact (stagePolicy_step lib now (m, stage) spec).series ref ht
  | _ => rfl

theorem act_keeps {key : String} {ref : Nat} (ht : m.table.reports.lookup key = some ref) (hs : a.takesKey key m = false)
    (hp : ∀ stage, a = .publishMaps stage → stage.reuseStore = true → stage.reports.lookup key = some ref) :
    (m.act lib a).table.reports.lookup key = some ref := by
  cases a with
  | acquire target =>
    simp only [act, reportSeries]
    split
    · exact ht
    next ha =>
      split
      · exact ht
      · have ne : key ≠ target := by
          rintro rfl
          rw [ht] at ha
          cases ha
        rw [GoMap.lookup_insert_eq, if_neg ne]
        exact ht
  | rollup _ _ target =>
    simp only [takesKey, Bool.and_eq_false_iff, beq_eq_false_iff_ne] at hs
    simp only [act, rollupEntry]
    split
    next he =>
      have ne : key ≠ target := by
        rintro rfl
        rcases hs with ho | hk
        · exact ho rfl
        · rw [he] at hk
          cases hk
      rw [GoMap.lookup_erase_eq, if_neg ne]
      exact ht
    · exact ht
  | dropOldest =>
    simp only [takesKey, Option.isNone_eq_false_iff, Option.isSome_iff_exists] at hs
    obtain ⟨ref', hk⟩ := hs
    have same := m.table.dropOldest_trimmed.sub key ref' hk
    rw [ht] at same
    cases same
    exact hk
  | publishMaps stage =>
    simp only [takesKey, Bool.not_eq_false'] at hs
    exact hp stage rfl hs
  | stageMaps config env =>
    rw [act, (stageMaps_step lib config env m).reports]
    exact ht
  | stagePolicy now stage spec =>
    rw [act, (stagePolicy_step lib now (m, stage) spec).reports]
    exact ht
  | _ => exact ht

end Manager

def TakesKey (lib : Stdlib) (key : String) (w : World Shared Call) : Event Call Nat → Prop
  | .step i => ∃ t ∈ w.calls[i]?, ∃ taken ∈ t.next lib w.shared, taken.1.takesKey key w.shared.manager = true
  | _ => False

instance (lib : Stdlib) (key : String) (w : World Shared Call) : ∀ e : Event Call Nat, Decidable (TakesKey lib key w e)
  | .step i => inferInstanceAs (Decidable (∃ t ∈ w.calls[i]?, ∃ taken ∈ t.next lib w.shared, _ = true))
  | .call _ | .environment _ => isFalse id

theorem Shared.perform_written (lib : Stdlib) (s : Shared) (j : Nat) (a : Action) :
    (s.perform lib j a).written = s.written ++ a.writes := by
  cases a <;> simp [perform, writes]

theorem Action.added_eq_writes (a : Action) (ref : Nat) :
    (a.onSeries ref).filterMap SeriesOp.added =
      (a.writes.filter (fun e => e.ref == ref)).map (fun e => (e.now, e.increment)) := by
  cases a with
  | bump key target now increment | rollup reports now key target =>
    by_cases hs : target = ref <;> simp [onSeries, writes, SeriesOp.added, hs]
  | _ => rfl

section

variable (lib : Stdlib) (ref : Nat)

/-- What an event does to a series. -/
def eventOps (w : World Shared Call) : Event Call Nat → List SeriesOp
  | .step i =>
    match w.calls[i]?.bind (·.next lib w.shared) with
    | some (a, _) => a.onSeries ref
    | none => []
  | _ => []

def seriesOps (w : World Shared Call) : List (Event Call Nat) → List SeriesOp
  | [] => []
  | e :: events =>
    eventOps lib ref w e ++
      match (trafficControl lib).fire w e with
      | some w' => seriesOps w' events
      | none => []

def writtenSince (v w : World Shared Call) : ReportLog :=
  ((w.shared.written.drop v.shared.written.length).filter (fun e => e.ref == ref)).map fun e => (e.now, e.increment)

end

def SeriesOp.Keeps (start : Int) : SeriesOp → Prop
  | .rollup reports now => unixBefore now reports.hourlyRetention ≤ start
  | .bump _ _ => True

instance (start : Int) : ∀ op : SeriesOp, Decidable (op.Keeps start)
  | .rollup reports now => inferInstanceAs (Decidable (unixBefore now reports.hourlyRetention ≤ start))
  | .bump _ _ => inferInstanceAs (Decidable True)

/-- The series of the key went through the calls and rollups of the run and nothing else, and the calls are those of the log. -/
structure Survives (lib : Stdlib) (key : String) (ref : Nat) (v : World Shared Call) (events : List (Event Call Nat))
    (w : World Shared Call) : Prop where
  live : w.shared.manager.table.reports.lookup key = some ref
  series : w.shared.manager.table.series ref =
    (seriesOps lib ref v events).foldl ReportSeries.apply (v.shared.manager.table.series ref)
  written : ∃ entries, w.shared.written = v.shared.written ++ entries
  added : (seriesOps lib ref v events).filterMap SeriesOp.added = writtenSince ref v w

theorem total_cons (g : Granularity) (log : ReportLog) (now : Nat) (increment : ReportIncrement) (b : Int) :
    g.total ((now, increment) :: log) b = (if g.bucket now = b then increment.value else 0) + g.total log b := by
  simp [Granularity.total]

theorem value_foldl {ops : List SeriesOp} {start : Int} (hk : ∀ op ∈ ops, op.Keeps start) (series : ReportSeries) :
    (ops.foldl ReportSeries.apply series).value .hour start =
      series.value .hour start + Granularity.hour.total (ops.filterMap SeriesOp.added) start := by
  induction ops generalizing series with
  | nil => exact (add_zero _).symm
  | cons op ops ih =>
    rw [foldl_cons, ih fun op' h => hk op' (mem_cons_of_mem op h)]
    cases op with
    | bump now increment => rw [ReportSeries.apply, bump_hour, add_assoc, ← total_cons]; rfl
    | rollup reports now =>
      exact congrArg (Option.getD · 0 + _) (rollup_hourly (hk _ mem_cons_self))

variable {lib : Stdlib} {key : String} {ref : Nat} {v w : World Shared Call}

theorem writtenSince_append {entries : List ReportEntry} (h : w.shared.written = v.shared.written ++ entries) :
    writtenSince ref v w = (entries.filter (fun e => e.ref == ref)).map fun e => (e.now, e.increment) := by
  simp [writtenSince, h]

theorem Survives.quiet {events : List (Event Call Nat)} (ops : seriesOps lib ref v events = [])
    (ht : v.shared.manager.table.reports.lookup key = some ref) (same : w.shared.manager.table = v.shared.manager.table)
    (hw : w.shared.written = v.shared.written) : Survives lib key ref v events w := by
  have none : w.shared.written = v.shared.written ++ [] := by rw [hw, append_nil]
  refine ⟨by rw [same]; exact ht, by rw [ops, same]; rfl, ⟨[], none⟩, ?_⟩
  rw [ops, writtenSince_append none]
  rfl

theorem survives_fire {e : Event Call Nat} (hc : coverage.Holds v) (hs : ¬ TakesKey lib key v e)
    (ht : v.shared.manager.table.reports.lookup key = some ref) (old : ref < v.shared.manager.table.fresh)
    (hf : (trafficControl lib).fire v e = some w) :
    Survives lib key ref v [e] w ∧ v.shared.manager.table.fresh ≤ w.shared.manager.table.fresh := by
  have ops : seriesOps lib ref v [e] = eventOps lib ref v e := by simp [seriesOps, hf]
  rcases fire_cases hf with ⟨t, rfl, _, rfl⟩ | ⟨d, rfl, rfl⟩ | ⟨i, t, a, t', rfl, step, rfl⟩
  · exact ⟨.quiet ops ht rfl rfl, le_refl _⟩
  · exact ⟨.quiet ops ht rfl rfl, le_refl _⟩
  · have hk : a.takesKey key v.shared.manager = false := by
      cases hta : a.takesKey key v.shared.manager with
      | false => rfl
      | true => exact absurd ⟨t, step.here, (a, t'), step.next, hta⟩ hs
    have taken : t.next lib v.shared = some (a, t') := step.next
    rw [show eventOps lib ref v (.step i) = a.onSeries ref by simp [eventOps, step.here, taken]] at ops
    refine ⟨⟨Manager.act_keeps ht hk ?_, ?_, ⟨a.writes, v.shared.perform_written lib i a⟩, ?_⟩, Manager.act_freshSeries⟩
    · rintro stage rfl hr
      obtain ⟨_, _, old, rfl⟩ := Call.publishMaps_eq step.next
      have hco := hc.2 i _ step.here
      exact hco.clone stage.reports (by simp [ConfigurePc.clone, ConfigurePc.staged, hr]) key ref ht
    · rw [ops]
      exact Manager.act_series old
    · rw [ops, a.added_eq_writes ref, writtenSince_append (v.shared.perform_written lib i a)]

theorem Survives.cons {mid : World Shared Call} {e : Event Call Nat} {events : List (Event Call Nat)}
    (hf : (trafficControl lib).fire v e = some mid) (first : Survives lib key ref v [e] mid)
    (rest : Survives lib key ref mid events w) : Survives lib key ref v (e :: events) w := by
  have ops : seriesOps lib ref v (e :: events) = seriesOps lib ref v [e] ++ seriesOps lib ref mid events := by
    simp [seriesOps, hf]
  obtain ⟨entries, hw⟩ := first.written
  obtain ⟨entries', hw'⟩ := rest.written
  refine ⟨rest.live, ?_, ⟨entries ++ entries', by rw [hw', hw, append_assoc]⟩, ?_⟩
  · rw [ops, foldl_append, ← first.series, rest.series]
  · rw [ops, filterMap_append, first.added, rest.added, writtenSince_append hw, writtenSince_append hw',
      writtenSince_append (show w.shared.written = v.shared.written ++ (entries ++ entries') by rw [hw', hw, append_assoc]),
      filter_append, map_append]

theorem survives_run {events : List (Event Call Nat)}
    (ha : (trafficControl lib).Along (fun w e => coverage.Holds w ∧ ¬ TakesKey lib key w e) v events)
    (ht : v.shared.manager.table.reports.lookup key = some ref) (old : ref < v.shared.manager.table.fresh)
    (run : (trafficControl lib).run v events = some w) : Survives lib key ref v events w := by
  induction events generalizing v with
  | nil =>
    cases run
    exact .quiet rfl ht rfl rfl
  | cons _ _ ih =>
    obtain ⟨mid, hf, hr⟩ := run_cons run
    obtain ⟨hs, hfr⟩ := survives_fire ha.1.1 ha.1.2 ht old hf
    exact hs.cons hf (ih (ha.2 mid hf) hs.live (lt_of_lt_of_le old hfr) hr)

/-- In a run in which no series is created between the copy and the publication of a `Configure`
call: a series that is in the reports at any time is there at any later time too, and only the report
calls and rollups of the run have changed it. An hour that the rollups keep has what it had, and what the calls
of the run have added. The exceptions are a rollup that leaves nothing of the series, the
trimming of a store that is too large, and the publication of another store. -/
theorem reports_survive_configure {lib : Stdlib} {clock : Nat} {before events : List (Event Call Nat)}
    {v w : World Shared Call} {key : String} {ref : Nat}
    (safe : (trafficControl lib).Along CloneSafe (newWorld clock) (before ++ events))
    (reached : (trafficControl lib).run (newWorld clock) before = some v) (run : (trafficControl lib).run v events = some w)
    (spared : (trafficControl lib).Along (fun w e => ¬ TakesKey lib key w e) v events)
    (there : v.shared.manager.table.reports.lookup key = some ref) :
    Survives lib key ref v events w ∧ ∀ start, (∀ op ∈ seriesOps lib ref v events, op.Keeps start) →
      (w.shared.manager.table.series ref).value .hour start =
        (v.shared.manager.table.series ref).value .hour start + Granularity.hour.total (writtenSince ref v w) start := by
  obtain ⟨hf, hs⟩ := along_append safe reached
  have hst : (trafficControl lib).Exclusive (newWorld clock) ∧ coverage.Holds (newWorld clock) := by
    refine ⟨(soundness_newWorld lib clock).1, Nat.zero_le _, ?_⟩
    intro i t hh
    cases hh
  have hc := (coverage_outline lib).along ((coverage_outline lib).run hst hf reached) hs
  have hso := ((soundness_outline lib CloneSafe).run (soundness_newWorld lib clock) hf reached).2.1
  have survives := survives_run (along_imp (fun w e h => ⟨h.1.1.2, h.2⟩) (along_and hc spared)) there
    (hso.table.allocated key ref there) run
  refine ⟨survives, fun start hk => ?_⟩
  rw [survives.series, value_foldl hk, survives.added]

def configureAgain : List (Event Call Nat) := .call (.configuring (some idleConfig) {} .lock) :: replicate 29 (.step 3)

set_option maxRecDepth 4000 in
/-- 10 bytes are recorded and then a second configuration is published. -/
theorem reports_survive_configure_recorded :
    ∃ v w, (trafficControl idleStdlib).run (newWorld 1785542400000000000) (openingRun idleConfig 11 ++
        [.call (.recording 0 .upload 10 .start)] ++ List.replicate 15 (.step 2)) = some v ∧
      (trafficControl idleStdlib).run v configureAgain = some w ∧
      Survives idleStdlib "global:global" 0 v configureAgain w ∧
      (w.shared.manager.table.series 0).value .hour 1785542400 =
        (v.shared.manager.table.series 0).value .hour 1785542400 + Granularity.hour.total (writtenSince 0 v w) 1785542400 ∧
      w.shared.manager.table.query "global:global" .hour 1785542400 1785546000 =
        [⟨1785542400, { uploadBytes := 10, connections := 1 }⟩] := by
  obtain ⟨v, w, hr, run, hs, ht, keeps, hv⟩ : ∃ v w, (trafficControl idleStdlib).run (newWorld 1785542400000000000)
        (openingRun idleConfig 11 ++ [.call (.recording 0 .upload 10 .start)] ++ replicate 15 (.step 2)) = some v ∧
      (trafficControl idleStdlib).run v configureAgain = some w ∧
      (trafficControl idleStdlib).Along (fun w e => ¬ TakesKey idleStdlib "global:global" w e) v configureAgain ∧
      v.shared.manager.table.reports.lookup "global:global" = some 0 ∧
      (∀ op ∈ seriesOps idleStdlib 0 v configureAgain, op.Keeps 1785542400) ∧
      w.shared.manager.table.query "global:global" .hour 1785542400 1785546000 =
        [⟨1785542400, { uploadBytes := 10, connections := 1 }⟩] :=
    exists_of_any_any (by decide +kernel)
  have survive := reports_survive_configure (by decide) hr run hs ht
  exact ⟨v, w, hr, run, survive.1, survive.2 1785542400 keeps, hv⟩

def dailyConfig : Config :=
  { idleConfig with reports := ⟨true, durationDay, durationDay, durationDay, defaultOrphanRetention⟩ }

/-- A session is idle for three days and a flush removes its series. A second `Configure` call copies
the reports, and then 10 bytes are recorded. -/
def recordBehindClone : List (Event Call Nat) :=
  openingRun dailyConfig 11 ++ [.environment 259200000000000, .call (.flushing {} .lock)] ++
    List.replicate 12 (.step 2) ++ [.call (.configuring (some dailyConfig) {} .lock)] ++ List.replicate 3 (.step 3) ++
    [.call (.recording 0 .upload 10 .start)] ++ List.replicate 15 (.step 4)

set_option maxRecDepth 4000 in
/-- The `Configure` call publishes its copy, and the 10 bytes are gone: no rollup, no size limit and
no other store has taken them. -/
theorem record_lost_by_configure :
    ∃ v w, (trafficControl idleStdlib).run (newWorld 1785542400000000000) recordBehindClone = some v ∧
      (trafficControl idleStdlib).run v (List.replicate 26 (.step 3)) = some w ∧
      v.shared.manager.table.query "global:global" .hour 1785801600 1785805200 =
        [⟨1785801600, { uploadBytes := 10 }⟩] ∧
      (trafficControl idleStdlib).Along (fun w e => ¬ TakesKey idleStdlib "global:global" w e) v
        (replicate 26 (.step 3)) ∧
      w.shared.manager.table.query "global:global" .hour 1785801600 1785805200 = [] := by
  exact exists_of_any_any (by decide +kernel)

end AsterCore
