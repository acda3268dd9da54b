import Mathlib.Logic.Function.Basic
import Mathlib.Algebra.Order.BigOperators.Group.List
import Mathlib.Algebra.Ring.Int.Defs
import AsterCore.Interleaving

namespace AsterCore.Statistic

open List Function Int64 Program

inductive Direction
  | upload
  | download
  deriving DecidableEq

def Direction.pick (upload download : Int) : Direction → Int
  | .upload => upload
  | .download => download

def principalReportThreshold : Int64 := 65536

/-- The counters of one `principal`. `reported` and `added` are no fields of the source: what was
handed to `recordPrincipal`, and what the calls have added. -/
structure Counters where
  pending : Direction → Int64 := fun _ => 0
  reported : Direction → Int := fun _ => 0
  added : Direction → Int := fun _ => 0

namespace Report

/-- The calls in progress, by the next step: `accumulate` up to its `Add`, then its threshold test
and `CompareAndSwap`, then `recordPrincipal`; and `flush` with its two `Swap`s. -/
inductive Call
  | report (d : Direction) (size : Int64)
  | swapFull (d : Direction) (total : Int64)
  | record (d : Direction) (total : Int64)
  | flush
  | swapDownload (upload : Int64)
  | recordBoth (upload download : Int64)
  | returned
  deriving DecidableEq

inductive Action
  | nothing
  | add (d : Direction) (size : Int64)
  | clear (d : Direction)
  | hand (upload download : Int64)

def Action.perform : Action → Counters → Counters
  | .nothing, s => s
  | .add d size, s => { s with
      pending := Function.update s.pending d (s.pending d + size)
      added := Function.update s.added d (s.added d + size.toInt) }
  | .clear d, s => { s with pending := Function.update s.pending d 0 }
  | .hand upload download, s => { s with
      reported := fun d => s.reported d + d.pick upload.toInt download.toInt }

def Call.next (s : Counters) : Call → Option (Action × Call)
  | .report d size => if size ≤ 0 then some (.nothing, .returned) else some (.add d size, .swapFull d (s.pending d + size))
  | .swapFull d total =>
    if total < principalReportThreshold then some (.nothing, .returned)
    else if s.pending d = total then some (.clear d, .record d total) else some (.nothing, .returned)
  | .record .upload total => some (.hand total 0, .returned)
  | .record .download total => some (.hand 0 total, .returned)
  | .flush => some (.clear .upload, .swapDownload (s.pending .upload))
  | .swapDownload upload => some (.clear .download, .recordBoth upload (s.pending .download))
  | .recordBoth upload download =>
    if upload > 0 ∨ download > 0 then some (.hand upload download, .returned) else some (.nothing, .returned)
  | .returned => none

def Call.entry : Call → Bool
  | .report _ _ | .flush => true
  | _ => false

/-- Any number of `reportUpload`, `reportDownload` and `flush` calls on one principal. -/
def program : Program Counters Call Action Empty Empty where
  next := Call.next
  perform := fun _ a s => a.perform s
  environment := fun e => nomatch e
  entry := fun _ t => t.entry
  held := fun _ => []
  takes := fun _ => []
  clash := fun _ _ => false
  clash_symm := fun _ _ => rfl
  entry_held := fun _ => rfl
  next_held := fun _ l mem => by cases mem

def overflows (s : Counters) : Call → Bool
  | .report d size => 9223372036854775807 < (s.pending d).toInt + size.toInt
  | _ => false

def fits (w : World Counters Call) : Event Call Empty → Bool
  | .step i => w.calls[i]?.all fun t => !overflows w.shared t
  | _ => true

def Call.carries (d : Direction) : Call → Int
  | .record d' total => if d' = d then total.toInt else 0
  | .swapDownload upload => d.pick upload.toInt 0
  | .recordBoth upload download => d.pick upload.toInt download.toInt
  | _ => 0

structure Conserved (w : World Counters Call) : Prop where
  balance : ∀ d, w.shared.reported d + (w.calls.map (Call.carries d)).sum + (w.shared.pending d).toInt = w.shared.added d
  pending : ∀ d, 0 ≤ (w.shared.pending d).toInt
  carried : ∀ (i : Nat) t d, w.calls[i]? = some t → 0 ≤ t.carries d

theorem toInt_add_of_fits {a b : Int64} (hn : 0 ≤ a.toInt) (hp : 0 < b.toInt)
    (fits : a.toInt + b.toInt ≤ 9223372036854775807) : (a + b).toInt = a.toInt + b.toInt := by
  rw [toInt_add]
  exact Int.bmod_eq_of_le (by omega) (by omega)

variable {w : World Counters Call} {i : Nat} {t t' : Call}

theorem Conserved.move {s : Counters} (h : Conserved w) (hh : w.calls[i]? = some t)
    (hb : ∀ d, s.reported d + (s.pending d).toInt + (t'.carries d - t.carries d) - s.added d =
      w.shared.reported d + (w.shared.pending d).toInt - w.shared.added d)
    (hp : ∀ d, 0 ≤ (s.pending d).toInt) (hc : ∀ d, 0 ≤ t'.carries d) : Conserved ⟨s, w.calls.set i t'⟩ := by
  refine ⟨?_, hp, ?_⟩
  · intro d
    have sum := sum_map_set (Call.carries d) t' hh
    have before := h.balance d
    have change := hb d
    show s.reported d + ((w.calls.set i t').map (Call.carries d)).sum + (s.pending d).toInt = s.added d
    omega
  · intro j u d ht
    rcases getElem?_set_cases ht with ⟨_, rfl⟩ | ⟨_, old⟩
    · exact hc d
    · exact h.carried j u d old

theorem Conserved.idle (h : Conserved w) (hh : w.calls[i]? = some t)
    (hn : ∀ d, t.carries d = 0) : Conserved ⟨w.shared, w.calls.set i .returned⟩ := by
  refine h.move hh (fun d => ?_) h.pending (fun _ => Int.le_refl 0)
  rw [hn d]
  show _ + (0 - 0) - _ = _
  omega

theorem clear_pending (s : Counters) (d d' : Direction) :
    ((Action.clear d).perform s).pending d' = if d' = d then 0 else s.pending d' := update_apply _ _ _ _

theorem Conserved.step {a : Action} (h : Conserved w)
    (hh : w.calls[i]? = some t) (next : t.next w.shared = some (a, t')) (hf : overflows w.shared t = false) :
    Conserved ⟨a.perform w.shared, w.calls.set i t'⟩ := by
  have hc := fun d => h.carried i t d hh
  cases t with
  | report d size =>
    simp only [Call.next] at next
    split at next <;> cases next
    · exact h.idle hh (fun _ => rfl)
    next hp =>
      have hp : 0 < size.toInt := by
        rw [le_iff_toInt_le] at hp
        exact Int.not_le.mp hp
      have hr : (w.shared.pending d).toInt + size.toInt ≤ 9223372036854775807 := by
        simpa [overflows] using hf
      have sum := toInt_add_of_fits (h.pending d) hp hr
      have hco : ∀ d', (((Action.add d size).perform w.shared).pending d').toInt =
          (w.shared.pending d').toInt + if d' = d then size.toInt else 0 := by
        intro d'
        show (update w.shared.pending d (w.shared.pending d + size) d').toInt = _
        rw [update_apply]
        split
        next hs => rw [sum, hs]
        · rw [Int.add_zero]
      have total : ∀ d', ((Action.add d size).perform w.shared).added d' =
          w.shared.added d' + if d' = d then size.toInt else 0 := by
        intro d'
        show update w.shared.added d (w.shared.added d + size.toInt) d' = _
        rw [update_apply]
        split
        next hs => rw [hs]
        · rw [Int.add_zero]
      refine h.move hh ?_ ?_ (fun _ => Int.le_refl 0)
      · intro d'
        rw [hco, total]
        show w.shared.reported d' + _ + (0 - 0) - _ = _
        omega
      · intro d'
        have hb := h.pending d'
        rw [hco]
        split <;> omega
  | swapFull d total =>
    simp only [Call.next] at next
    split at next
    · cases next
      exact h.idle hh (fun _ => rfl)
    · split at next <;> cases next
      next hs =>
        refine h.move hh ?_ ?_ ?_
        · intro d'
          rw [clear_pending]
          show w.shared.reported d' + _ + ((if d = d' then total.toInt else 0) - 0) - w.shared.added d' = _
          by_cases this : d' = d
          · subst this
            rw [if_pos rfl, if_pos rfl, hs]
            show _ + 0 + _ - _ = _
            omega
          · rw [if_neg this, if_neg (Ne.symm this)]
            omega
        · intro d'
          rw [clear_pending]
          split
          · decide
          · exact h.pending d'
        · intro d'
          show 0 ≤ if d = d' then total.toInt else 0
          have hb := h.pending d
          rw [hs] at hb
          split
          · exact hb
          · exact Int.le_refl 0
      · exact h.idle hh (fun _ => rfl)
  | record d =>
    cases d <;> cases next <;> refine h.move hh (fun d' => ?_) h.pending (fun _ => Int.le_refl 0) <;>
      cases d' <;> simp [Action.perform, Call.carries, Direction.pick] <;> omega
  | flush =>
    cases next
    refine h.move hh ?_ ?_ ?_
    · intro d'
      cases d' <;> simp [Action.perform, Call.carries, Direction.pick]
    · intro d'
      rw [clear_pending]
      split
      · decide
      · exact h.pending d'
    · intro d'
      cases d' with
      | upload => exact h.pending .upload
      | download => exact Int.le_refl 0
  | swapDownload upload =>
    cases next
    refine h.move hh ?_ ?_ ?_
    · intro d'
      cases d' <;> simp [Action.perform, Call.carries, Direction.pick]
    · intro d'
      rw [clear_pending]
      split
      · decide
      · exact h.pending d'
    · intro d'
      cases d' with
      | upload => exact hc .upload
      | download => exact h.pending .download
  | recordBoth upload download =>
    have up : 0 ≤ upload.toInt := hc .upload
    have down : 0 ≤ download.toInt := hc .download
    simp only [Call.next] at next
    split at next <;> cases next
    · refine h.move hh (fun d' => ?_) h.pending (fun _ => Int.le_refl 0)
      cases d' <;> simp [Action.perform, Call.carries] <;> omega
    next hn =>
      rw [gt_iff_lt, gt_iff_lt, lt_iff_toInt_lt, lt_iff_toInt_lt, toInt_zero] at hn
      refine h.move hh (fun d' => ?_) h.pending (fun _ => Int.le_refl 0)
      cases d' <;> simp [Action.perform, Call.carries, Direction.pick] <;> omega
  | returned => cases next

theorem Conserved.fire {w' : World Counters Call} {e : Event Call Empty} (h : Conserved w) (fit : fits w e = true)
    (hf : program.fire w e = some w') : Conserved w' := by
  rcases fire_cases hf with ⟨t, _, he, rfl⟩ | ⟨d, _, _⟩ | ⟨i, t, a, t', rfl, hs, rfl⟩
  · have hn : ∀ d, t.carries d = 0 := by
      intro d
      cases t with
      | report _ _ | flush => rfl
      | _ => cases he
    refine ⟨?_, h.pending, ?_⟩
    · intro d
      rw [map_append, sum_append, map_singleton, sum_singleton, hn d, Int.add_zero]
      exact h.balance d
    · intro j u d ht
      rcases getElem?_append_cases ht with ⟨_, rfl⟩ | ⟨_, old⟩
      · exact Int.le_of_eq (hn d).symm
      · exact h.carried j u d old
  · exact nomatch d
  · rw [fits, hs.here] at fit
    exact h.step hs.here hs.next (by simpa using fit)

theorem conserved_start : Conserved ⟨{}, []⟩ where
  balance := fun _ => rfl
  pending := fun _ => Int.le_refl 0
  carried := fun _ _ _ ht => by cases ht

def lastFlush (n : Nat) : List (Event Call Empty) := [.call .flush, .step n, .step n, .step n]

theorem fire_step {a : Action} (hh : w.calls[i]? = some t)
    (hn : t.next w.shared = some (a, t')) : program.fire w (.step i) = some ⟨a.perform w.shared, w.calls.set i t'⟩ :=
  Program.fire_step ⟨hh, hn, fun _ _ _ _ _ mem => by cases mem⟩

def taken (u d : Int64) : Action :=
  if u > 0 ∨ d > 0 then .hand u d else .nothing

theorem recordBoth_next (s : Counters) (u d : Int64) : (Call.recordBoth u d).next s = some (taken u d, .returned) := by
  simp only [Call.next, taken]
  split
  · rfl
  · rfl

theorem lastFlush_run (s : Counters) (calls : List Call) :
    program.run ⟨s, calls⟩ (lastFlush calls.length) =
      some ⟨(taken (s.pending .upload) (s.pending .download)).perform
        ((Action.clear .download).perform ((Action.clear .upload).perform s)), calls ++ [.returned]⟩ := by
  have hl : ∀ t : Call, (calls ++ [t])[calls.length]? = some t := fun t => getElem?_concat_length
  have hr : ∀ t u : Call, (calls ++ [t]).set calls.length u = calls ++ [u] := by
    intro t u
    rw [set_append_right _ _ (Nat.le_refl _), Nat.sub_self]
    rfl
  have hk : ((Action.clear .upload).perform s).pending .download = s.pending .download := rfl
  have hst : program.fire ⟨s, calls⟩ (.call .flush) = some ⟨s, calls ++ [.flush]⟩ := rfl
  have hf := fire_step (w := ⟨s, calls ++ [.flush]⟩) (hl .flush) rfl
  have hs := fire_step (w := ⟨(Action.clear .upload).perform s, calls ++ [.swapDownload (s.pending .upload)]⟩)
    (hl _) rfl
  have ht := fire_step (w := ⟨(Action.clear .download).perform ((Action.clear .upload).perform s),
    calls ++ [.recordBoth (s.pending .upload) (s.pending .download)]⟩) (hl _) (recordBoth_next _ _ _)
  simp only [hr] at hf hs ht
  simp only [lastFlush, run, hst, hf, hs, hk, ht]

/-- As long as no counter overflows, the bytes handed over, those on their way and those pending are
the bytes added, and after a last `flush` the reports are exact. -/
theorem reports_exact {w : World Counters Call} {events : List (Event Call Empty)}
    (fit : program.Along (fun w e => fits w e = true) ⟨{}, []⟩ events) (run : program.run ⟨{}, []⟩ events = some w) :
    (∀ d, w.shared.reported d + (w.calls.map (Call.carries d)).sum + (w.shared.pending d).toInt = w.shared.added d) ∧
      ((∀ t ∈ w.calls, t = .returned) → ∃ w', program.run w (lastFlush w.calls.length) = some w' ∧
        ∀ d, w'.shared.reported d = w.shared.added d) := by
  have hc := run_invariant (fun _ _ _ h fit hf => Conserved.fire h fit hf) conserved_start fit run
  refine ⟨hc.balance, ?_⟩
  intro hi
  have hca : ∀ d, (w.calls.map (Call.carries d)).sum = 0 := by
    intro d
    refine sum_eq_zero fun x mem => ?_
    obtain ⟨t, hh, rfl⟩ := mem_map.mp mem
    rw [hi t hh]
    rfl
  refine ⟨_, lastFlush_run w.shared w.calls, ?_⟩
  intro d
  have hb := hc.balance d
  rw [hca d, Int.add_zero] at hb
  have up := hc.pending .upload
  have down := hc.pending .download
  unfold taken
  split
  · cases d <;> simp only [Action.perform] <;> exact hb
  next hn =>
    rw [gt_iff_lt, gt_iff_lt, lt_iff_toInt_lt, lt_iff_toInt_lt, toInt_zero] at hn
    cases d <;> simp only [Action.perform] <;> omega

/-- Two writers of one connection: the first fills the counter and hands it over, the second leaves ten
bytes for the last `flush`. -/
def twoWriters : List (Event Call Empty) :=
  [.call (.report .upload 65536), .call (.report .upload 10), .step 0, .step 0, .step 1, .step 0, .step 1]

theorem reports_exact_sample : ∃ w, program.run ⟨{}, []⟩ twoWriters = some w ∧ w.shared.added .upload = 65546 ∧
    ∃ w', program.run w (lastFlush w.calls.length) = some w' ∧ ∀ d, w'.shared.reported d = w.shared.added d := by
  refine ⟨(program.run ⟨{}, []⟩ twoWriters).get (by decide +kernel), (Option.some_get _).symm, by decide +kernel, ?_⟩
  exact (reports_exact (by decide +kernel) (Option.some_get _).symm).2 (by decide +kernel)

/-- Between its `CompareAndSwap` and `recordPrincipal` a call carries bytes that are neither pending nor
reported. Two writers whose sizes overflow the counter leave it negative: the last `flush` drops it. -/
theorem carried_and_overflowed_bytes :
    (∃ w, program.run ⟨{}, []⟩ [.call (.report .upload 65536), .step 0, .step 0] = some w ∧
      w.shared.reported .upload + (w.shared.pending .upload).toInt = 0 ∧ w.shared.added .upload = 65536) ∧
    (∃ w, program.run ⟨{}, []⟩ ([.call (.report .upload 9223372036854775807), .call (.report .upload 1),
        .step 0, .step 1, .step 1, .step 0] ++ lastFlush 2) = some w ∧ (∀ t ∈ w.calls, t = .returned) ∧
      w.shared.reported .upload = 0 ∧ w.shared.added .upload = 9223372036854775808) := by
  refine ⟨⟨_, (Option.some_get (by decide +kernel)).symm, ?_⟩, ⟨_, (Option.some_get (by decide +kernel)).symm, ?_⟩⟩
  · decide +kernel
  · decide +kernel

end Report

end AsterCore.Statistic
