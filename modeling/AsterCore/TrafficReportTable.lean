import AsterCore.TrafficReportAccount
import Mathlib.Logic.Function.Basic

namespace AsterCore

open List Function GoMap

/-- The map `m.reports` from keys to series pointers, with the series they point to. A series
that left the map still exists for whoever holds its pointer. -/
structure ReportTable where
  reports : GoMap String Nat := ∅
  series : Nat → ReportSeries := fun _ => { key := "" }
  fresh : Nat := 0

def maxReportSeries : Nat := 4096

namespace ReportTable

/-- `Manager.reportSeries`: the pointer for a key, created on first use unless the table is full. -/
def reportSeries (t : ReportTable) (key : String) : ReportTable × Option Nat :=
  match t.reports.lookup key with
  | some ref => (t, some ref)
  | none =>
    if maxReportSeries ≤ t.reports.entries.length then (t, none)
    else
      ({ reports := t.reports.insert key t.fresh
         series := Function.update t.series t.fresh { key := key }
         fresh := t.fresh + 1 }, some t.fresh)

def bumpSeries (t : ReportTable) (ref now : Nat) (increment : ReportIncrement) : ReportTable :=
  { t with series := Function.update t.series ref ((t.series ref).bump now increment) }

/-- One round of a report call. The flag tells whether the key has a series. -/
def recordKey (increment : ReportIncrement) (now : Nat) (t : ReportTable) (key : String) :
    ReportTable × Bool :=
  match t.reportSeries key with
  | (t, none) => (t, false)
  | (t, some ref) => (t.bumpSeries ref now increment, true)

/-- The common body of the report calls; `reports` is the configuration of the current runtime. -/
def recordReport (reports : Option ReportsConfig) (increment : ReportIncrement) (keys : List String)
    (now : Nat) (t : ReportTable) : ReportTable :=
  match reports with
  | none => t
  | some reports =>
    if reports.enabled then keys.foldl (fun t key => (t.recordKey increment now key).1) t else t

def recordReports (reports : Option ReportsConfig) (keys : List String) (direction : Direction)
    (bytes : Int64) (now : Nat) (t : ReportTable) : ReportTable :=
  t.recordReport reports (.transfer direction bytes) keys now

def recordReportConnections (reports : Option ReportsConfig) (keys : List String) (count : Int64)
    (now : Nat) (t : ReportTable) : ReportTable :=
  t.recordReport reports (.connections count) keys now

def recordReportExceeded (reports : Option ReportsConfig) (keys : List String) (now : Nat)
    (t : ReportTable) : ReportTable :=
  t.recordReport reports .exceeded keys now

/-- One round of the loop over `m.reports` in `rollupAndPruneLocked`. -/
def rollupEntry (reports : ReportsConfig) (now : Nat) (t : ReportTable) (key : String) (ref : Nat) :
    ReportTable :=
  let series := (t.series ref).rollupAndPrune reports now
  { t with
    series := Function.update t.series ref series
    reports := if series.isEmpty then t.reports.erase key else t.reports }

def rollupAndPrune (reports : ReportsConfig) (now : Nat) (t : ReportTable) : ReportTable :=
  t.reports.foldl (rollupEntry reports now) t

def query (t : ReportTable) (key : String) (granularity : Granularity) (from_ to_ : Int) : List UsageBucket :=
  match t.reports.lookup key with
  | none => []
  | some ref => (t.series ref).buckets granularity from_ to_

def seriesAt (t : ReportTable) (key : String) : ReportSeries :=
  match t.reports.lookup key with
  | none => { key := key }
  | some ref => t.series ref

def WellFormed (t : ReportTable) : Prop := t.reports.Pointers t.fresh

variable {t t' : ReportTable} {key : String} {found : Option Nat}

theorem WellFormed.sub (wf : t.WellFormed) (sub : ∀ key ref, t'.reports.lookup key = some ref → t.reports.lookup key = some ref)
    (hf : t.fresh ≤ t'.fresh) : t'.WellFormed :=
  GoMap.Pointers.sub wf sub hf

theorem WellFormed.insertFresh (wf : t.WellFormed) (key : String) (series : Nat → ReportSeries) :
    WellFormed { reports := t.reports.insert key t.fresh, series := series, fresh := t.fresh + 1 } :=
  GoMap.Pointers.insertFresh wf key

theorem wellFormed_empty : WellFormed {} := GoMap.Pointers.empty 0

theorem reportSeries_cases (h : t.reportSeries key = (t', found)) :
    (∃ ref, t.reports.lookup key = some ref ∧ t' = t ∧ found = some ref) ∨
    (t.reports.lookup key = none ∧ t' = t ∧ found = none) ∨ (t.reports.lookup key = none ∧ found = some t.fresh ∧
      t' = { reports := t.reports.insert key t.fresh
             series := update t.series t.fresh { key := key }
             fresh := t.fresh + 1 }) := by
  unfold reportSeries at h
  split at h
  next ref ht =>
    cases h
    exact .inl ⟨ref, ht, rfl, rfl⟩
  next ha =>
    split at h <;> cases h
    · exact .inr (.inl ⟨ha, rfl, rfl⟩)
    · exact .inr (.inr ⟨ha, rfl, rfl⟩)

theorem reportSeries_fresh (t : ReportTable) (key : String) : t.fresh ≤ (t.reportSeries key).1.fresh := by
  unfold reportSeries
  split
  · exact le_refl _
  · split
    · exact le_refl _
    · exact Nat.le_succ _

theorem reportSeries_wellFormed (wf : t.WellFormed) (h : t.reportSeries key = (t', found)) : t'.WellFormed := by
  rcases reportSeries_cases h with ⟨_, _, rfl, _⟩ | ⟨_, rfl, _⟩ | ⟨_, _, rfl⟩
  · exact wf
  · exact wf
  · exact wf.insertFresh key _

theorem reportSeries_seriesAt (wf : t.WellFormed) (h : t.reportSeries key = (t', found)) (other : String) :
    t'.seriesAt other = t.seriesAt other := by
  rcases reportSeries_cases h with ⟨_, _, rfl, _⟩ | ⟨_, rfl, _⟩ | ⟨ha, _, rfl⟩
  · rfl
  · rfl
  · unfold seriesAt
    rw [lookup_insert_eq]
    by_cases hs : other = key
    · subst hs
      simp [ha]
    · rw [if_neg hs]
      cases ht : t.reports.lookup other with
      | none => rfl
      | some ref => exact update_of_ne (Nat.ne_of_lt (wf.allocated other ref ht)) _ _

theorem reportSeries_found {ref : Nat} (h : t.reportSeries key = (t', some ref)) : t'.reports.lookup key = some ref := by
  rcases reportSeries_cases h with ⟨r, ht, rfl, eq⟩ | ⟨_, _, eq⟩ | ⟨_, eq, rfl⟩
  · cases eq; exact ht
  · cases eq
  · cases eq; exact AList.lookup_insert _

theorem bumpSeries_wellFormed (wf : t.WellFormed) (ref now : Nat)
    (increment : ReportIncrement) : (t.bumpSeries ref now increment).WellFormed :=
  ⟨wf.allocated, wf.distinct⟩

theorem bumpSeries_seriesAt (wf : t.WellFormed) {ref : Nat}
    (ht : t.reports.lookup key = some ref) (now : Nat) (increment : ReportIncrement) (other : String) :
    (t.bumpSeries ref now increment).seriesAt other =
      if other = key then (t.seriesAt key).bump now increment else t.seriesAt other := by
  unfold seriesAt
  simp only [bumpSeries]
  by_cases hs : other = key
  · subst hs
    simp [ht]
  · rw [if_neg hs]
    cases h : t.reports.lookup other with
    | none => rfl
    | some r =>
      have ne : r ≠ ref := fun eq => hs (wf.distinct other key ref (eq ▸ h) ht)
      exact update_of_ne ne _ _

theorem recordKey_cases {landed : Bool} {increment : ReportIncrement} {now : Nat}
    (wf : t.WellFormed) (h : t.recordKey increment now key = (t', landed)) :
    t'.WellFormed ∧ ∀ other, t'.seriesAt other =
      if landed ∧ other = key then (t.seriesAt key).bump now increment else t.seriesAt other := by
  unfold recordKey at h
  rcases found : t.reportSeries key with ⟨mid, _ | ref⟩
  · rw [found] at h
    cases h
    refine ⟨reportSeries_wellFormed wf found, fun other => ?_⟩
    simp [reportSeries_seriesAt wf found other]
  · rw [found] at h
    cases h
    have hmw := reportSeries_wellFormed wf found
    refine ⟨bumpSeries_wellFormed hmw ref now increment, fun other => ?_⟩
    rw [bumpSeries_seriesAt hmw (reportSeries_found found),
      reportSeries_seriesAt wf found, reportSeries_seriesAt wf found]
    simp

theorem recordKey_wellFormed (wf : t.WellFormed) (increment : ReportIncrement) (now : Nat) (key : String) :
    (t.recordKey increment now key).1.WellFormed :=
  (recordKey_cases wf Prod.mk.eta.symm).1

theorem recordReport_wellFormed (wf : t.WellFormed) (reports : Option ReportsConfig)
    (increment : ReportIncrement) (keys : List String) (now : Nat) :
    (t.recordReport reports increment keys now).WellFormed := by
  unfold recordReport
  split
  · exact wf
  · split
    · exact foldlRecOn (motive := WellFormed) keys _ wf fun _ wf key _ => recordKey_wellFormed wf increment now key
    · exact wf

section Rollup

variable (reports : ReportsConfig) (now : Nat)

def rollupLoop (l : List (Σ _ : String, Nat)) (t : ReportTable) : ReportTable :=
  l.foldl (fun t e => t.rollupEntry reports now e.1 e.2) t

section

variable (l : List (Σ _ : String, Nat))

include l

theorem rollupLoop_fresh (t : ReportTable) : (rollupLoop reports now l t).fresh = t.fresh := by
  induction l generalizing t with
  | nil => rfl
  | cons e _ ih => exact ih (t.rollupEntry reports now e.1 e.2)

theorem rollupLoop_series (hd : (l.map Sigma.snd).Nodup) (t : ReportTable) (ref : Nat) :
    (rollupLoop reports now l t).series ref =
      if ref ∈ l.map Sigma.snd then (t.series ref).rollupAndPrune reports now else t.series ref := by
  induction l generalizing t with
  | nil => rfl
  | cons e _ ih =>
    obtain ⟨hf, hr⟩ := nodup_cons.mp hd
    refine Eq.trans (ih hr (t.rollupEntry reports now e.1 e.2)) ?_
    by_cases hs : ref = e.2
    · subst hs
      rw [if_neg hf, if_pos (by simp)]
      exact update_self _ _ _
    · have ho : (t.rollupEntry reports now e.1 e.2).series ref = t.series ref :=
        update_of_ne hs _ _
      simp only [ho, map_cons, mem_cons, hs, false_or]

theorem rollupLoop_reports (hd : (l.map Sigma.snd).Nodup) (t : ReportTable) (key : String) :
    (rollupLoop reports now l t).reports.lookup key =
      if ∃ e ∈ l, e.1 = key ∧ ((t.series e.2).rollupAndPrune reports now).isEmpty then none
      else t.reports.lookup key := by
  induction l generalizing t with
  | nil => simp [rollupLoop]
  | cons e l ih =>
    obtain ⟨hf, hr⟩ := nodup_cons.mp hd
    refine Eq.trans (ih hr (t.rollupEntry reports now e.1 e.2)) ?_
    have hl : ∀ x ∈ l, (t.rollupEntry reports now e.1 e.2).series x.2 = t.series x.2 := by
      intro x hx
      exact update_of_ne (fun eq => hf (by rw [← eq]; exact mem_map_of_mem hx)) _ _
    have ht : (∃ x ∈ l, x.1 = key ∧
        (((t.rollupEntry reports now e.1 e.2).series x.2).rollupAndPrune reports now).isEmpty) ↔
          ∃ x ∈ l, x.1 = key ∧ ((t.series x.2).rollupAndPrune reports now).isEmpty := by
      constructor
      · rintro ⟨x, hx, eq, he⟩
        exact ⟨x, hx, eq, by rw [hl x hx] at he; exact he⟩
      · rintro ⟨x, hx, eq, he⟩
        exact ⟨x, hx, eq, by rw [hl x hx]; exact he⟩
    have hh : (t.rollupEntry reports now e.1 e.2).reports.lookup key =
        if e.1 = key ∧ ((t.series e.2).rollupAndPrune reports now).isEmpty then none
        else t.reports.lookup key := by
      unfold rollupEntry
      simp only
      cases ((t.series e.2).rollupAndPrune reports now).isEmpty with
      | false => simp
      | true => simp only [if_true, and_true, lookup_erase_eq, eq_comm (a := key)]
    simp only [ht, hh, mem_cons, or_and_right, exists_or, exists_eq_left]
    by_cases a : ∃ x ∈ l, x.1 = key ∧ ((t.series x.2).rollupAndPrune reports now).isEmpty
    · simp only [a, or_true, if_true]
    · simp only [a, or_false, if_false]

end

variable {t : ReportTable}

section

variable (wf : t.WellFormed)

include wf

theorem wellFormed_refs_nodup : (t.reports.entries.map Sigma.snd).Nodup := by
  refine List.Nodup.map_on ?_ t.reports.nodupKeys.nodup
  rintro ⟨k, r⟩ hk ⟨k', r'⟩ hk' eq
  have hs := eq
  subst hs
  rw [wf.distinct k k' r (mem_entries_iff.mp hk) (mem_entries_iff.mp hk')]

theorem rollup_lookup (key : String) :
    (t.rollupAndPrune reports now).reports.lookup key =
      (t.reports.lookup key).filter (fun ref => !((t.series ref).rollupAndPrune reports now).isEmpty) := by
  refine Eq.trans (rollupLoop_reports reports now t.reports.entries (wellFormed_refs_nodup wf) t key) ?_
  cases ht : t.reports.lookup key with
  | none =>
    rw [if_neg]
    · rfl
    · rintro ⟨e, he, rfl, _⟩
      rw [mem_entries_iff.mp he] at ht
      cases ht
  | some ref =>
    have hit : (∃ e ∈ t.reports.entries, e.1 = key ∧ ((t.series e.2).rollupAndPrune reports now).isEmpty) ↔
        ((t.series ref).rollupAndPrune reports now).isEmpty := by
      constructor
      · rintro ⟨⟨k, r⟩, he, rfl, hem⟩
        have hs := Option.some.inj ((mem_entries_iff.mp he).symm.trans ht)
        subst hs
        exact hem
      · exact fun hem => ⟨⟨key, ref⟩, mem_entries_iff.mpr ht, rfl, hem⟩
    simp only [hit, Option.filter_some]
    cases ((t.series ref).rollupAndPrune reports now).isEmpty <;> rfl

theorem rollup_series {key : String} {ref : Nat} (ht : t.reports.lookup key = some ref) :
    (t.rollupAndPrune reports now).series ref = (t.series ref).rollupAndPrune reports now := by
  refine Eq.trans (rollupLoop_series reports now t.reports.entries (wellFormed_refs_nodup wf) t ref) ?_
  rw [if_pos]
  exact mem_map.mpr ⟨⟨key, ref⟩, mem_entries_iff.mpr ht, rfl⟩

theorem rollup_wellFormed : (t.rollupAndPrune reports now).WellFormed := by
  refine wf.sub ?_ (le_of_eq (rollupLoop_fresh reports now t.reports.entries t).symm)
  intro _ _ h
  rw [rollup_lookup reports now wf, Option.filter_eq_some_iff] at h
  exact h.1

theorem rollup_seriesAt (key : String) :
    (t.rollupAndPrune reports now).seriesAt key =
      if ((t.seriesAt key).rollupAndPrune reports now).isEmpty then { key := key }
      else (t.seriesAt key).rollupAndPrune reports now := by
  have ha := rollup_lookup reports now wf key
  unfold seriesAt
  rw [ha]
  cases ht : t.reports.lookup key with
  | none => rfl
  | some ref =>
    simp only [Option.filter_some]
    cases ((t.series ref).rollupAndPrune reports now).isEmpty with
    | true => rfl
    | false => exact rollup_series reports now wf ht

end

end Rollup

end ReportTable

end AsterCore
