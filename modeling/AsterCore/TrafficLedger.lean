import AsterCore.TrafficOutline

namespace AsterCore

open List

namespace Shared

def passes (s : Shared) (i : Nat) : List RuntimeState := (s.passed.filter (fun e => e.1 == i)).map Prod.snd

def entries (s : Shared) (i : Nat) : List LedgerEntry := s.ledger.filter (fun e => e.call == i)

end Shared

def Action.passes (m : Manager) : Action → List RuntimeState
  | .pass => [m.runtime]
  | _ => []

def Action.entries (m : Manager) (i : Nat) : Action → List LedgerEntry
  | .count p direction bytes _ => [⟨i, p, direction, bytes, m.runtime⟩]
  | _ => []

variable {a : Action}

theorem Action.entries_call {m : Manager} {i : Nat} {e : LedgerEntry} (h : e ∈ a.entries m i) : e.call = i := by
  cases a with
  | count => rw [mem_singleton.mp h]
  | _ => cases h

def RecordPc.applied : RecordPc → Option (SessionBinding × List RuntimePolicy)
  | .clock b => some (b, [])
  | .count b _ _ counted _ => some (b, counted)
  | .report b _ _ _ | .dirty b _ _ | .exceeded b _ | .returned (some b) => some (b, b.policies)
  | _ => none

def Call.applied : Call → Option (SessionBinding × List RuntimePolicy)
  | .recording _ _ _ pc => pc.applied
  | _ => none

def Call.passes (t : Call) : List RuntimeState := t.applied.elim [] (fun e => [e.1.runtime])

def ledgerEntries (i : Nat) (direction : Direction) (bytes : Int64) (r : RuntimeState)
    (policies : List RuntimePolicy) : List LedgerEntry :=
  policies.map (fun p => ⟨i, p, direction, bytes, r⟩)

def Call.entries (i : Nat) : Call → List LedgerEntry
  | .recording _ direction bytes pc => pc.applied.elim [] (fun e => ledgerEntries i direction bytes e.1.runtime e.2)
  | _ => []

namespace Shared

variable (lib : Stdlib) (s : Shared) (j : Nat) (a : Action)

theorem perform_passed : (s.perform lib j a).passed = s.passed ++ (a.passes s.manager).map (Prod.mk j) := by
  cases a <;> simp [perform, Action.passes]

theorem perform_ledger : (s.perform lib j a).ledger = s.ledger ++ a.entries s.manager j := by
  cases a <;> simp [perform, Action.entries]

theorem perform_passes (i : Nat) : (s.perform lib j a).passes i = s.passes i ++ if j = i then a.passes s.manager else [] := by
  unfold passes
  rw [perform_passed, filter_append]
  by_cases hs : j = i <;> simp [filter_map, hs]

theorem perform_entries (i : Nat) :
    (s.perform lib j a).entries i = s.entries i ++ if j = i then a.entries s.manager i else [] := by
  unfold entries
  rw [perform_ledger]
  by_cases hs : j = i
  · cases a <;> simp [Action.entries, hs]
  · cases a <;> simp [Action.entries, hs]

end Shared

def Action.Untold : Action → Prop
  | .pass | .count _ _ _ _ => False
  | _ => True

theorem Action.Untold.passes (h : a.Untold) (m : Manager) : a.passes m = [] := by
  cases a <;> first | rfl | cases h

theorem Action.Untold.entries (h : a.Untold) (m : Manager) (i : Nat) : a.entries m i = [] := by
  cases a <;> first | rfl | cases h

theorem Action.IsScan.untold (h : a.IsScan) : a.Untold := by
  cases a <;> trivial

theorem Action.IsReport.untold (h : a.IsReport) : a.Untold := by
  cases a <;> trivial

theorem Action.IsStaging.untold (h : a.IsStaging) : a.Untold := by
  cases a <;> trivial

theorem Action.IsFlush.untold (h : a.IsFlush) : a.Untold := by
  cases a <;> trivial

section Next

variable {lib : Stdlib} {s : Shared} {session : Session} {a : Action}

/-- A step of a call adds to the history what the point it reaches has more than the one before. -/
structure Tells (m : Manager) (i : Nat) (t : Call) (a : Action) (t' : Call) : Prop where
  passes : t'.passes = t.passes ++ a.passes m
  entries : t'.entries i = t.entries i ++ a.entries m i

variable {i : Nat}

theorem Tells.ofUntold {m : Manager} {t t' : Call} (hu : a.Untold) (hp : t'.passes = t.passes)
    (he : t'.entries i = t.entries i) : Tells m i t a t' := by
  refine ⟨?_, ?_⟩
  · rw [hp, hu.passes, append_nil]
  · rw [he, hu.entries, append_nil]

theorem RecordPc.next_tells {k : Nat} {direction : Direction} {bytes : Int64} {pc pc' : RecordPc}
    (hg : pc.Good lib s.manager session bytes) (h : pc.next lib k session direction bytes s = some (a, pc')) :
    Tells s.manager i (.recording k direction bytes pc) a (.recording k direction bytes pc') := by
  cases step_of_next h with
  | binds hs | unbound hs | bound hs =>
    refine .ofUntold ?_ rfl rfl
    rcases hs.kind with scans | reports | ⟨_, _, _, rfl⟩
    · exact scans.untold
    · exact reports.untold
    · trivial
  | @pass b same =>
    have bound : s.manager.Binds lib session.flow b := hg
    exact ⟨by simp [Call.passes, Call.applied, applied, Action.passes, bound.runtime.current same], rfl⟩
  | unreported | reports =>
    have all := hg.2.2
    rw [append_nil] at all
    exact .ofUntold trivial rfl (by rw [all]; rfl)
  | count =>
    refine ⟨rfl, ?_⟩
    simp [Call.entries, applied, ledgerEntries, Action.entries, hg.2.1]
  | report hs | reported hs | exceeding hs | exceeded hs =>
    exact .ofUntold (RecordReportPc.next_isReport hs).untold rfl rfl
  | _ => exact .ofUntold trivial rfl rfl

theorem ConfigurePc.next_untold {config : Option Config} {env : ConfigureEnv} {pc pc' : ConfigurePc}
    (h : pc.next lib config env s = some (a, pc')) : a.Untold := by
  cases ConfigurePc.next_kind h with
  | flush hf => exact hf.untold
  | stage hs => exact hs.untold
  | _ => trivial

theorem Call.next_tells {t t' : Call} (good : t.Good lib s.manager) (h : t.next lib s = some (a, t')) :
    Tells s.manager i t a t' := by
  cases step_of_next h with
  | opening step =>
    rcases OpenPc.next_kind step with scans | reports | ⟨b, rfl⟩
    · exact .ofUntold scans.untold rfl rfl
    · exact .ofUntold reports.untold rfl rfl
    · exact .ofUntold trivial rfl rfl
  | recording there step =>
    obtain ⟨_, there', good⟩ := good
    rw [there] at there'
    cases there'
    exact RecordPc.next_tells good step
  | waiting _ step =>
    rcases WaitPc.next_kind step with scans | reports | ⟨_, _, _, rfl⟩
    · exact .ofUntold scans.untold rfl rfl
    · exact .ofUntold reports.untold rfl rfl
    · exact .ofUntold trivial rfl rfl
  | closing _ step =>
    rcases ClosePc.next_kind step with scans | rfl | rfl
    · exact .ofUntold scans.untold rfl rfl
    · exact .ofUntold trivial rfl rfl
    · exact .ofUntold trivial rfl rfl
  | configuring step => exact .ofUntold (ConfigurePc.next_untold step) rfl rfl
  | flushing step => exact .ofUntold (FlushPc.next_isFlush step).untold rfl rfl

end Next

theorem Call.entry_applied {s : Shared} {t : Call} (h : t.entry s = true) : t.applied = none := by
  unfold Call.entry at h
  split at h <;> first | rfl | cases h

theorem Call.entries_of_applied {t : Call} (h : t.applied = none) (i : Nat) : t.entries i = [] := by
  cases t with
  | recording _ _ _ pc =>
    have none : pc.applied = none := h
    simp [entries, none]
  | _ => rfl

def history : Program.Assertions Shared Call where
  memory s n := (∀ e ∈ s.passed, e.1 < n) ∧ ∀ e ∈ s.ledger, e.call < n
  call s i t := s.passes i = t.passes ∧ s.entries i = t.entries i

theorem history_outline (lib : Stdlib) :
    (trafficControl lib).Outline
      (fun w _ => ((trafficControl lib).Exclusive w ∧ (soundness lib).Holds w) ∧ True) history where
  entry := by
    intro w t holds _ entry
    obtain ⟨passed, ledger⟩ := holds.1
    refine ⟨⟨fun e he => Nat.lt_succ_of_lt (passed e he), fun e he => Nat.lt_succ_of_lt (ledger e he)⟩, ?_, ?_⟩
    · have none : w.shared.passed.filter (fun e => e.1 == w.calls.length) = [] :=
        filter_eq_nil_iff.mpr fun e he => by simpa using Nat.ne_of_lt (passed e he)
      rw [Shared.passes, none, Call.passes, Call.entry_applied entry]
      rfl
    · have none : w.shared.entries w.calls.length = [] :=
        List.filter_eq_nil_iff.mpr fun e he => by simpa using Nat.ne_of_lt (ledger e he)
      rw [none, Call.entries_of_applied (Call.entry_applied entry)]
  environment holds _ := holds
  own := by
    intro w i t a _ holds meets step
    have tells := Call.next_tells (i := i) (meets.1.2.2 i t step.here) step.next
    obtain ⟨passes, entries⟩ := holds.2 i t step.here
    have lt := (List.getElem?_eq_some_iff.mp step.here).1
    refine ⟨⟨?_, ?_⟩, ?_, ?_⟩
    · intro e he
      change e ∈ (w.shared.perform lib i a).passed at he
      rw [Shared.perform_passed] at he
      rcases mem_append.mp he with old | new
      · exact holds.1.1 e old
      · obtain ⟨r, _, rfl⟩ := mem_map.mp new
        exact lt
    · intro e he
      change e ∈ (w.shared.perform lib i a).ledger at he
      rw [Shared.perform_ledger] at he
      rcases mem_append.mp he with old | new
      · exact holds.1.2 e old
      · rw [Action.entries_call new]
        exact lt
    · rw [tells.passes, ← passes]
      exact (w.shared.perform_passes lib i a i).trans (by rw [if_pos rfl])
    · rw [tells.entries, ← entries]
      exact (w.shared.perform_entries lib i a i).trans (by rw [if_pos rfl])
  stable := by
    intro w i j t u a _ holds _ _ there ne _
    obtain ⟨passes, entries⟩ := holds.2 j u there
    refine ⟨?_, ?_⟩
    · rw [← passes]
      exact (w.shared.perform_passes lib i a j).trans (by rw [if_neg (Ne.symm ne), append_nil])
    · rw [← entries]
      exact (w.shared.perform_entries lib i a j).trans (by rw [if_neg (Ne.symm ne), append_nil])

end AsterCore
