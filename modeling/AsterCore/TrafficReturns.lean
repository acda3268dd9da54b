import AsterCore.TrafficActive
import Mathlib.Data.Prod.Lex
import Mathlib.Order.WellFounded

namespace AsterCore

open CurrentBindingPc

def RecordReportPc.rank (keys : List String) : RecordReportPc → Nat
  | .load _ => 2 * keys.length + 3
  | .clock => 2 * keys.length + 2
  | .loop _ todo => 2 * todo.length + 1
  | .held _ _ _ todo => 2 * todo.length + 2

def BindSessionPc.rank (scan : BindSessionPc) : Nat :=
  3 * scan.todo.length + match scan.pc with
    | .clock => 3
    | .refresh _ => 2
    | .add => 1

/-- A binding for a runtime that is not current sends `Record` back to `currentBinding`. -/
def stale (current : Nat) (runtime : RuntimeState) (stage : Nat) : Nat :=
  if runtime.ref = current then stage else stage + 20

def CurrentBindingPc.rank (current : Nat) (closed : Bool) : CurrentBindingPc → Nat × Nat
  | .closed => (if closed then 1 else 20, 0)
  | .runtime => (19, 0)
  | .compare loaded => (stale current loaded 18, 0)
  | .lock => (17, 0)
  | .closedLocked => (16, 0)
  | .runtimeLocked => (15, 0)
  | .compareLocked loaded => (stale current loaded 14, 0)
  | .bindSession _ scan => (stale current scan.runtime 13, scan.rank)
  | .store _ next => (stale current next.runtime 12, 0)
  | .release todo next => (stale current next.runtime 11, todo.length)
  | .report next pc => (stale current next.runtime 10, pc.rank next.reportKeys)

def RecordPc.rank (current : Nat) (closed : Bool) : RecordPc → Nat × Nat
  | .start => (41, 0)
  | .currentBinding pc => pc.rank current closed
  | .gate b => (stale current b.runtime 9, 0)
  | .gateClosed b => (stale current b.runtime 8, 0)
  | .gateRuntime b => (stale current b.runtime 7, 0)
  | .clock _ => (6, 0)
  | .count _ _ _ _ todo => (5, todo.length)
  | .report b _ _ pc => (4, pc.rank b.reportKeys)
  | .dirty _ _ _ => (3, 0)
  | .exceeded b pc => (2, pc.rank b.reportKeys)
  | .returned _ => (0, 0)

section Rank

variable {lib : Stdlib} {s : Shared} {session : Session} {a : Action}

theorem RecordReportPc.next_rank {pc pc' : RecordReportPc} {increment : ReportIncrement} {keys : List String}
    (h : pc.next increment keys s = (a, .more pc')) : pc'.rank keys < pc.rank keys := by
  cases pc with
  | load time =>
    simp only [next] at h
    split at h <;> cases h
    cases time with
    | none => exact Nat.lt_succ_self _
    | some => exact (show 2 * keys.length + 1 < 2 * keys.length + 3 by omega)
  | clock =>
    cases h
    exact Nat.lt_succ_self _
  | loop _ todo =>
    cases todo with
    | nil => cases h
    | cons key todo =>
      cases h
      cases (s.manager.table.reportSeries key).2 with
      | none => exact (show 2 * todo.length + 1 < 2 * (todo.length + 1) + 1 by omega)
      | some => exact (show 2 * todo.length + 2 < 2 * (todo.length + 1) + 1 by omega)
  | held =>
    cases h
    exact Nat.lt_succ_self _

theorem BindSessionPc.next_rank {scan : BindSessionPc} {r : Rest BindSessionPc SessionBinding} (h : scan.next s = (a, r)) :
    r.Post (fun scan' => scan'.rank < scan.rank ∧ scan'.runtime = scan.runtime) (fun b => b.runtime = scan.runtime) := by
  unfold next at h
  split at h <;> cases h
  · exact newBinding_runtime _ _
  next pc => exact ⟨by simp [rank, pc], rfl⟩
  next pc => exact ⟨by simp [rank, pc], rfl⟩
  next hh pc =>
    refine ⟨?_, rfl⟩
    simp only [rank, hh, pc, List.length_cons]
    omega

theorem stale_lt (current : Nat) (runtime : RuntimeState) {n n' : Nat} (h : n < n') :
    stale current runtime n < stale current runtime n' := by
  unfold stale
  split <;> omega

theorem stale_congr {current : Nat} {runtime runtime' : RuntimeState} (hs : runtime.ref = runtime'.ref) (n : Nat) :
    stale current runtime n = stale current runtime' n := by
  unfold stale
  rw [hs]

theorem le_stale (current : Nat) (runtime : RuntimeState) (n : Nat) : n ≤ stale current runtime n := by
  unfold stale
  split <;> omega

theorem lex_stage {a b c d : Nat} (h : a < b) : toLex (a, c) < toLex (b, d) := Prod.Lex.toLex_lt_toLex.mpr (.inl h)

theorem lex_place {a c d : Nat} (h : c < d) : toLex (a, c) < toLex (a, d) :=
  Prod.Lex.toLex_lt_toLex.mpr (.inr ⟨rfl, h⟩)

theorem CurrentBindingPc.rank_step {k : Nat} {pc : CurrentBindingPc} {r : Rest CurrentBindingPc (Option SessionBinding)}
    (h : pc.Step lib k session s a r) : let rank := rank s.manager.runtime.ref session.closed
    r.Post (fun pc' => toLex (rank pc') < toLex (rank pc))
      (fun b => b.elim True (fun b => stale s.manager.runtime.ref b.runtime 9 < (rank pc).1)) := by
  have hb : ∀ {r : RuntimeState} {n : Nat}, 9 < n → session.binding.any (·.isFor r) = true →
      session.binding.elim True (fun b => stale s.manager.runtime.ref b.runtime 9 < stale s.manager.runtime.ref r n) := by
    intro r n hl current
    cases hh : session.binding with
    | none => trivial
    | some b =>
      have hs : b.runtime.ref = r.ref := by simpa [hh, SessionBinding.isFor] using current
      rw [Option.elim_some, stale_congr hs]
      exact stale_lt _ _ hl
  cases h with
  | closed | closedLocked => trivial
  | opened opened => exact lex_stage (by simp [opened])
  | runtime | runtimeLocked => exact lex_stage (by simp [stale])
  | current hs | currentLocked hs => exact hb (by omega) hs
  | stale => exact lex_stage (lt_of_lt_of_le (by omega) (le_stale _ _ _))
  | lock | openedLocked => exact lex_stage (by omega)
  | scan step =>
    obtain ⟨hl, hs⟩ := BindSessionPc.next_rank step
    simp only [Rest.Post, rank, hs]
    exact lex_place hl
  | scanned step =>
    have hs := BindSessionPc.next_rank step
    simp only [Rest.Post] at hs
    simp only [Rest.Post, rank, hs]
    exact lex_stage (stale_lt _ _ (by omega))
  | release => exact lex_place (Nat.lt_succ_self _)
  | report step => exact lex_place (RecordReportPc.next_rank step)
  | reported => exact stale_lt _ _ (by omega)
  | staleLocked | store | released => exact lex_stage (stale_lt _ _ (by omega))

theorem CurrentBindingPc.rank_pos (current : Nat) (closed : Bool) (pc : CurrentBindingPc) : 0 < (pc.rank current closed).1 := by
  cases pc with
  | closed => cases closed <;> exact Nat.succ_pos _
  | compare => exact lt_of_lt_of_le (by omega) (le_stale _ _ 18)
  | compareLocked => exact lt_of_lt_of_le (by omega) (le_stale _ _ 14)
  | bindSession => exact lt_of_lt_of_le (by omega) (le_stale _ _ 13)
  | store => exact lt_of_lt_of_le (by omega) (le_stale _ _ 12)
  | release => exact lt_of_lt_of_le (by omega) (le_stale _ _ 11)
  | report => exact lt_of_lt_of_le (by omega) (le_stale _ _ 10)
  | _ => exact Nat.succ_pos _

theorem RecordPc.next_rank {k : Nat} {direction : Direction} {bytes : Int64} {pc pc' : RecordPc}
    (h : pc.next lib k session direction bytes s = some (a, pc')) :
    toLex (pc'.rank s.manager.runtime.ref session.closed) < toLex (pc.rank s.manager.runtime.ref session.closed) := by
  cases step_of_next h with
  | start => exact lex_stage (by split <;> omega)
  | binds hs => exact rank_step hs
  | @unbound pc => exact lex_stage (pc.rank_pos _ _)
  | bound hs => exact lex_stage (rank_step hs)
  | closed closed =>
    refine lex_stage ?_
    simp only [closed, if_true]
    exact lt_of_lt_of_le (by omega) (le_stale _ _ 8)
  | gate | opened => exact lex_stage (stale_lt _ _ (by omega))
  | pass => exact lex_stage (lt_of_lt_of_le (by omega) (le_stale _ _ 7))
  | back ho =>
    refine lex_stage ?_
    simp only [stale, ho, if_false]
    split <;> omega
  | count => exact lex_place (Nat.lt_succ_self _)
  | report hs | exceeding hs => exact lex_place (RecordReportPc.next_rank hs)
  | _ => exact lex_stage (by omega)

end Rank

variable {k : Nat} {direction : Direction} {bytes : Int64}

theorem RecordPc.returned_of_next {lib : Stdlib} {session : Session} {s : Shared} {pc : RecordPc}
    (h : pc.next lib k session direction bytes s = none) : ∃ b, pc = .returned b := by
  cases pc with
  | returned b => exact ⟨b, rfl⟩
  | currentBinding pc | gateRuntime b =>
    simp only [next] at h
    split at h <;> cases h
  | count _ _ _ _ todo => cases todo <;> cases h
  | report b now crossed pc | exceeded b pc =>
    simp only [next] at h
    split at h <;> cases h
  | _ => cases h

structure RecordsAlone (lib : Stdlib) (k : Nat) (direction : Direction) (bytes : Int64) (current : Nat) (flow : Flow)
    (closed : Bool) (x : Shared × Call) : Prop where
  sound : x.1.manager.Sound lib
  good : x.2.Good lib x.1.manager
  call : ∃ pc, x.2 = .recording k direction bytes pc
  runtime : x.1.manager.runtime.ref = current
  session : ∀ session, x.1.manager.sessions[k]? = some session → session.flow = flow ∧ session.closed = closed

def Call.rank (current : Nat) (closed : Bool) : Call → Nat × Nat
  | .recording _ _ _ pc => pc.rank current closed
  | _ => (0, 0)

theorem RecordsAlone.step {lib : Stdlib} {current : Nat} {flow : Flow}
    {closed : Bool} {i : Nat} {x y : Shared × Call} (inv : RecordsAlone lib k direction bytes current flow closed x)
    (hta : (trafficControl lib).AloneStep i x y) :
    RecordsAlone lib k direction bytes current flow closed y ∧
      toLex (y.2.rank current closed) < toLex (x.2.rank current closed) := by
  obtain ⟨s, t⟩ := x
  obtain ⟨s', t'⟩ := y
  obtain ⟨hs, good, ⟨pc, call⟩, hr, hc⟩ := inv
  obtain ⟨a, hn, ha⟩ := hta
  simp only at hs good call hr hc ha
  subst call
  change (Call.recording k direction bytes pc).next lib s = some (a, t') at hn
  have hm : s'.manager = s.manager.act lib a := by rw [ha]; rfl
  obtain ⟨hg, hg'⟩ := Call.own hs good hn
  cases Call.step_of_next hn with
  | recording ht step =>
    obtain ⟨_, ht', hh⟩ := good
    rw [ht] at ht'
    cases ht'
    have same := (hc _ ht).2
    have change := RecordPc.next_change hh step
    refine ⟨⟨?_, ?_, ⟨_, rfl⟩, ?_, ?_⟩, ?_⟩
    · rw [hm]
      exact Manager.sound_act hs hg.fits
    · rw [hm]
      exact hg'
    · rw [hm, Manager.act_runtime, hr]
      rintro r rfl
      rcases change with hq | ⟨b, eq, _⟩
      · exact hq
      · cases eq
    · intro session'' ht''
      rw [hm] at ht''
      rcases Manager.act_session_cases ht'' with old | ⟨flow, b, rfl, _⟩ |
          ⟨before, old, ⟨b, rfl, rfl⟩ | ⟨rfl, rfl⟩⟩
      · exact hc session'' old
      · rcases change with hq | ⟨b, eq, _⟩
        · exact absurd hq id
        · cases eq
      · exact hc before old
      · rcases change with hq | ⟨b, eq, _⟩
        · exact absurd hq id
        · cases eq
    · have hl := RecordPc.next_rank step
      rw [hr, same] at hl
      exact hl

theorem record_returns {lib : Stdlib} {w : World Shared Call} (hh : (soundness lib).Holds w) {i : Nat}
    {pc : RecordPc} {session : Session}
    (here : w.calls[i]? = some (.recording k direction bytes pc)) (ht : w.shared.manager.sessions[k]? = some session)
    (ho : ∀ (j : Nat) u, j ≠ i → w.calls[j]? = some u → u.held = []) :
    ∃ n w' b session', (trafficControl lib).run w (List.replicate n (.step i)) = some w' ∧
      w'.calls[i]? = some (.recording k direction bytes (.returned b)) ∧
      w'.shared.manager.sessions[k]? = some session' ∧ session'.flow = session.flow ∧
      session'.closed = session.closed := by
  have hs : RecordsAlone lib k direction bytes w.shared.manager.runtime.ref session.flow session.closed
      (w.shared, .recording k direction bytes pc) := by
    refine ⟨hh.1, hh.2 i _ here, ⟨pc, rfl⟩, rfl, fun session' ht' => ?_⟩
    rw [ht] at ht'
    cases ht'
    exact ⟨rfl, rfl⟩
  obtain ⟨⟨s', _⟩, ha, ⟨_, hg, ⟨pc', hc⟩, _, same⟩, hr⟩ := Program.Alone.terminates (i := i)
    (fun x => toLex (x.2.rank w.shared.manager.runtime.ref session.closed)) RecordsAlone.step hs
  subst hc
  obtain ⟨session', ht', _⟩ := hg
  obtain ⟨n, run⟩ := ha.run here ho
  have lt := (List.getElem?_eq_some_iff.mp here).1
  change (Call.recording k direction bytes pc').next lib s' = none at hr
  simp only [Call.next, ht', Option.map_eq_none_iff] at hr
  obtain ⟨b, rfl⟩ := RecordPc.returned_of_next hr
  exact ⟨n, _, b, session', run, List.getElem?_set_self lt, ht', same session' ht'⟩

end AsterCore
