import AsterCore.TrafficPending
import AsterCore.TrafficRegistered
import Mathlib.Algebra.Order.BigOperators.Group.List

namespace AsterCore

open List Program Session Call

variable {lib : Stdlib}

theorem Manager.act_session_cases {m : Manager} {a : Action} {k : Nat} {session' : Session}
    (h : (m.act lib a).sessions[k]? = some session') :
    m.sessions[k]? = some session' ∨ (∃ flow b, a = .enroll flow b ∧ session' = ⟨flow, some b, false⟩) ∨
      ∃ session, m.sessions[k]? = some session ∧
        ((∃ b, a = .bind k b ∧ session' = { session with binding := b }) ∨
          a = .close k ∧ session' = { session with closed := true }) := by
  have hm : ∀ {j : Nat} {f : Session → Session}, (m.modifySession j f).sessions[k]? = some session' →
      (j ≠ k ∧ m.sessions[k]? = some session') ∨ (j = k ∧ ∃ session, m.sessions[k]? = some session ∧ session' = f session) := by
    intro j f ht
    simp only [modifySession, getElem?_modify] at ht
    obtain ⟨session, hh, eq⟩ := Option.map_eq_some_iff.mp ht
    split at eq
    next same => exact .inr ⟨same, session, hh, eq.symm⟩
    next ho => exact .inl ⟨ho, eq ▸ hh⟩
  cases a with
  | enroll flow b =>
    rcases getElem?_append_cases h with ⟨_, new⟩ | ⟨_, old⟩
    · exact .inr (.inl ⟨flow, b, rfl, new⟩)
    · exact .inl old
  | bind _ b =>
    rcases hm h with ⟨_, old⟩ | ⟨rfl, session, hh, eq⟩
    · exact .inl old
    · exact .inr (.inr ⟨session, hh, .inl ⟨b, rfl, eq⟩⟩)
  | close =>
    rcases hm h with ⟨_, old⟩ | ⟨rfl, session, hh, eq⟩
    · exact .inl old
    · exact .inr (.inr ⟨session, hh, .inr ⟨rfl, eq⟩⟩)
  | stageMaps config env =>
    have hs := stageMaps_step lib config env m
    rw [act, hs.rest] at h
    exact .inl h
  | stagePolicy now stage spec =>
    have hs := stagePolicy_step lib now (m, stage) spec
    rw [act, hs.rest] at h
    exact .inl h
  | _ => exact .inl h

inductive SessionChange (m : Manager) : Call → Action → Call → Prop
  | rebind {t t' : Call} {k : Nat} {b : SessionBinding} {session : Session} (there : m.sessions[k]? = some session)
    (opened : session.closed = false) (other : ∀ j, t ≠ .closing j .swap) : SessionChange m t (.bind k (some b)) t'
  | mark {k : Nat} : SessionChange m (.closing k .mark) (.close k) (.closing k .swap)
  | swap {t' : Call} {k : Nat} : SessionChange m (.closing k .swap) (.bind k none) t'

structure NoSessionChange (t : Call) (a : Action) : Prop where
  bind : ∀ k b, a ≠ .bind k b
  close : ∀ k, a ≠ .close k
  swap : ∀ k, t ≠ .closing k .swap

theorem Action.Quiet.noSessionChange {t : Call} {a : Action} (hq : a.Quiet) (hs : ∀ k, t ≠ .closing k .swap) :
    NoSessionChange t a := by
  refine ⟨?_, ?_, hs⟩
  · rintro k b rfl
    exact hq
  · rintro k rfl
    exact hq

section Change

variable {lib : Stdlib} {s : Shared} {session : Session} {a : Action}

theorem RecordPc.next_change {k : Nat} {direction : Direction} {bytes : Int64} {pc pc' : RecordPc}
    (hg : pc.Good lib s.manager session bytes) (h : pc.next lib k session direction bytes s = some (a, pc')) :
    a.Quiet ∨ ∃ b, a = .bind k (some b) ∧ session.closed = false := by
  cases RecordPc.next_kind h with
  | scan hs => exact .inl hs.quiet
  | report hr => exact .inl hr.quiet
  | @store _ b => exact .inr ⟨b, rfl, hg.2.2⟩
  | _ => exact .inl trivial

theorem WaitPc.next_change {k served : Nat} {pc pc' : WaitPc} (hg : pc.Good lib s.manager session)
    (h : pc.next lib k session served s = some (a, pc')) : a.Quiet ∨ ∃ b, a = .bind k (some b) ∧ session.closed = false := by
  rcases WaitPc.next_kind h with scans | reports | ⟨previous, b, rfl, rfl⟩
  · exact .inl scans.quiet
  · exact .inl reports.quiet
  · exact .inr ⟨b, rfl, hg.2.2⟩

theorem Call.next_change {t t' : Call} (hs : s.manager.Sound lib) (hg : t.Good lib s.manager)
    (h : t.next lib s = some (a, t')) : SessionChange s.manager t a t' ∨ NoSessionChange t a := by
  have hos : ∀ {k : Nat} {session : Session}, s.manager.sessions[k]? = some session →
      (∀ j, t ≠ .closing j .swap) → (a.Quiet ∨ ∃ b, a = .bind k (some b) ∧ session.closed = false) →
      SessionChange s.manager t a t' ∨ NoSessionChange t a := by
    rintro k _ ht hot (hq | ⟨b, rfl, ho⟩)
    · exact .inr (hq.noSessionChange hot)
    · exact .inl (.rebind ht ho hot)
  cases step_of_next h with
  | opening step =>
    obtain ⟨_, hq | ⟨b, rfl⟩, _⟩ := OpenPc.own hs hg step
    · exact .inr (hq.noSessionChange (by rintro k eq; cases eq))
    · refine .inr ⟨?_, ?_, ?_⟩
      all_goals
        intros
        rintro ⟨⟩
  | recording ht step =>
    obtain ⟨_, ht', hg⟩ := hg
    rw [ht] at ht'
    cases ht'
    exact hos ht (by rintro j eq; cases eq) (RecordPc.next_change hg step)
  | waiting ht step =>
    obtain ⟨_, ht', hg⟩ := hg
    rw [ht] at ht'
    cases ht'
    exact hos ht (by rintro j eq; cases eq) (WaitPc.next_change hg step)
  | @closing _ pc _ _ _ _ step =>
    cases pc with
    | lock =>
      cases step
      exact .inr ⟨(by rintro j b ⟨⟩), (by rintro j ⟨⟩), by rintro j ⟨⟩⟩
    | mark =>
      simp only [ClosePc.next] at step
      split at step <;> cases step
      · exact .inr ⟨(by rintro j b ⟨⟩), (by rintro j ⟨⟩), by rintro j ⟨⟩⟩
      · exact .inl .mark
    | swap =>
      cases step
      exact .inl .swap
    | release todo =>
      cases todo <;> cases step <;> exact .inr ⟨(by rintro j b ⟨⟩), (by rintro j ⟨⟩), by rintro j ⟨⟩⟩
    | returned => cases step
  | configuring step =>
    obtain ⟨_, _, _, hq | ⟨_, rfl⟩ | ⟨r, rfl⟩⟩ := ConfigurePc.own hs hg step
    · exact .inr (hq.noSessionChange (by rintro k eq; cases eq))
    · exact .inr ⟨(by rintro j b ⟨⟩), (by rintro j ⟨⟩), by rintro j ⟨⟩⟩
    · exact .inr ⟨(by rintro j b ⟨⟩), (by rintro j ⟨⟩), by rintro j ⟨⟩⟩
  | @flushing _ _ _ _ step =>
    refine .inr (Action.Quiet.noSessionChange ?_ (by rintro k eq; cases eq))
    exact (FlushPc.next_isFlush step).quiet

end Change

def Balanced (w : World Shared Call) : Prop :=
  ∀ ref, (w.shared.manager.heap ref).active =
    (w.shared.manager.sessions.map (Session.uses ref)).sum + (w.calls.map (Call.pending ref)).sum

def ClosedUnbound (w : World Shared Call) : Prop :=
  ∀ (k : Nat) session, w.shared.manager.sessions[k]? = some session → session.closed = true →
    session.binding = none ∨ ∃ i : Nat, w.calls[i]? = some (.closing k .swap)

theorem sum_eq_zero {β : Type} {l : List β} {f : β → Int} (h : ∀ x ∈ l, f x = 0) : (l.map f).sum = 0 := by
  apply List.sum_eq_zero
  intro y hy
  obtain ⟨x, hx, rfl⟩ := List.mem_map.mp hy
  exact h x hx

variable {t : Call} {w : World Shared Call}

theorem Call.Good.pending_eq_zero {m : Manager} {ref : Nat} (hg : t.Good lib m)
    (ha : m.freshState ≤ ref) : t.pending ref = 0 := by
  have hb : ∀ {session : Session} {pc : CurrentBindingPc}, pc.Good lib m session → pc.pending ref = 0 := by
    intro _ pc hg
    cases pc with
    | bindSession previous scan | store previous next => exact uses_eq_zero hg.1.below ha
    | release => exact uses_eq_zero hg.2 ha
    | _ => rfl
  cases t with
  | opening _ pc =>
    cases pc with
    | bindSession => exact uses_eq_zero (Manager.Scans.below hg) ha
    | report b pc | enroll b => exact uses_eq_zero (Manager.Binds.below hg) ha
    | _ => rfl
  | recording k direction bytes pc | waiting k served pc =>
    obtain ⟨_, _, hg⟩ := hg
    cases pc with
    | currentBinding => exact hb hg
    | _ => rfl
  | closing _ pc =>
    obtain ⟨_, _, hg⟩ := hg
    cases pc with
    | release => exact uses_eq_zero hg.2 ha
    | _ => rfl
  | configuring config env pc | flushing env pc => rfl

theorem Balanced.idle (hb : Balanced w) (hh : (soundness lib).Holds w) : w.shared.manager.Idle := by
  intro ref ha
  have hse : ∀ session ∈ w.shared.manager.sessions, session.uses ref = 0 := by
    intro session hs
    cases hbo : session.binding with
    | none => simp [Session.uses, hbo, uses]
    | some b =>
      have hbe := (hh.1.sessions session hs b hbo).below
      simpa [Session.uses, hbo] using uses_eq_zero hbe ha
  have hc : ∀ t ∈ w.calls, t.pending ref = 0 := by
    intro t ht
    obtain ⟨i, here⟩ := mem_iff_getElem?.mp ht
    exact (hh.2 i t here).pending_eq_zero ha
  rw [hb ref, sum_eq_zero hse, sum_eq_zero hc, add_zero]

theorem Call.entry_pending {s : Shared} (h : t.entry s = true) (ref : Nat) : t.pending ref = 0 := by
  unfold entry at h
  split at h <;> first | rfl | cases h

theorem balanced_fire {w' : World Shared Call} {e : Event Call Nat}
    (hh : (soundness lib).Holds w) (hb : Balanced w) (h : (trafficControl lib).fire w e = some w') : Balanced w' := by
  intro ref
  rcases fire_cases h with ⟨t, rfl, he, rfl⟩ | ⟨d, rfl, rfl⟩ | ⟨i, t, a, t', rfl, hs, rfl⟩
  · have none := entry_pending he ref
    have hbe := hb ref
    simp only [map_append, map_cons, map_nil, sum_append, sum_cons, sum_nil]
    omega
  · exact hb ref
  · have hbe := hb ref
    have ha := Manager.act_active lib a (hb.idle hh) ref
    have bound := w.shared.manager.act_bound lib a ref
    have hp := next_pending ref (hh.2 i t hs.here) hs.next
    have calls := sum_map_set (pending ref) t' hs.here
    have same : ((trafficControl lib).perform i a w.shared).manager = w.shared.manager.act lib a := rfl
    simp only [same]
    omega

theorem closedUnbound_fire {w' : World Shared Call} {e : Event Call Nat}
    (hh : (soundness lib).Holds w) (hu : ClosedUnbound w) (h : (trafficControl lib).fire w e = some w') : ClosedUnbound w' := by
  intro k session ht hcl
  rcases fire_cases h with ⟨t, rfl, entry, rfl⟩ | ⟨d, rfl, rfl⟩ | ⟨i, t, a, t', rfl, hs, rfl⟩
  · rcases hu k session ht hcl with none | ⟨j, here⟩
    · exact .inl none
    · have lt := (List.getElem?_eq_some_iff.mp here).1
      exact .inr ⟨j, by rw [getElem?_append_left lt, here]⟩
  · exact hu k session ht hcl
  · have hc := next_change hh.1 (hh.2 i t hs.here) hs.next
    have lt := (List.getElem?_eq_some_iff.mp hs.here).1
    -- the `Close` that was about to take the binding is still there unless it took this step
    have hw : (t = .closing k .swap → session.binding = none) → w.shared.manager.sessions[k]? = some session →
        session.binding = none ∨ ∃ j : Nat, (w.calls.set i t')[j]? = some (.closing k .swap) := by
      intro own old
      rcases hu k session old hcl with none | ⟨j, here⟩
      · exact .inl none
      · by_cases same : j = i
        · rw [same, hs.here] at here
          exact .inl (own (Option.some.inj here))
        · exact .inr ⟨j, by rw [getElem?_set_ne (Ne.symm same), here]⟩
    rcases Manager.act_session_cases ht with old | ⟨flow, b, rfl, rfl⟩ |
        ⟨before, old, ⟨b, rfl, rfl⟩ | ⟨rfl, rfl⟩⟩
    · refine hw (fun here => ?_) old
      have hta : (closing k .swap).next lib w.shared = some (a, t') := here ▸ hs.next
      cases step_of_next hta with
      | closing _ swap =>
        cases swap
        have hg : (w.shared.manager.act lib (.bind k none)).sessions[k]? = some { session with binding := none } := by
          simp [Manager.act, Manager.modifySession, old]
        rw [show ((trafficControl lib).perform i (.bind k none) w.shared).manager =
          w.shared.manager.act lib (.bind k none) from rfl, hg] at ht
        rw [← Option.some.inj ht]
    · cases hcl
    · rcases hc with hc | same
      · cases hc with
        | rebind here ho =>
          rw [old] at here
          cases here
          rw [show before.closed = true from hcl] at ho
          cases ho
        | swap => exact .inl rfl
      · exact absurd rfl (same.bind k b)
    · rcases hc with hc | same
      · cases hc with
        | mark => exact .inr ⟨i, getElem?_set_self lt⟩
      · exact absurd rfl (same.close k)

def CurrentBindingPc.midway : CurrentBindingPc → Bool
  | .bindSession _ _ | .store _ _ | .release _ _ => true
  | _ => false

def Call.midway : Call → Bool
  | .opening _ pc =>
    match pc with
    | .bindSession _ | .report _ _ | .enroll _ => true
    | _ => false
  | .recording _ _ _ (.currentBinding pc) | .waiting _ _ (.currentBinding pc) => pc.midway
  | .closing _ pc =>
    match pc with
    | .swap | .release _ => true
    | _ => false
  | _ => false

theorem CurrentBindingPc.pending_eq_zero {pc : CurrentBindingPc} (h : pc.midway = false) (ref : Nat) : pc.pending ref = 0 := by
  cases pc <;> first | rfl | cases h

theorem Call.pending_eq_zero (h : t.midway = false) (ref : Nat) : t.pending ref = 0 := by
  cases t with
  | opening _ pc => cases pc <;> first | rfl | cases h
  | recording k direction bytes pc | waiting k served pc =>
    cases pc with
    | currentBinding pc => exact pc.pending_eq_zero h ref
    | _ => rfl
  | closing _ pc => cases pc <;> first | rfl | cases h
  | _ => rfl

theorem CurrentBindingPc.pending_nonneg (pc : CurrentBindingPc) (ref : Nat) : 0 ≤ pc.pending ref := by
  cases pc <;> first | exact uses_nonneg _ _ | exact le_refl 0

theorem Call.pending_nonneg (t : Call) (ref : Nat) : 0 ≤ t.pending ref := by
  cases t with
  | opening _ pc => cases pc <;> first | exact uses_nonneg _ _ | exact le_refl 0
  | recording k direction bytes pc | waiting k served pc =>
    cases pc with
    | currentBinding pc => exact pc.pending_nonneg ref
    | _ => exact le_refl 0
  | closing _ pc => cases pc <;> first | exact uses_nonneg _ _ | exact le_refl 0
  | _ => exact le_refl 0

def Manager.openUses (m : Manager) (ref : Nat) : Int :=
  ((m.sessions.filter (fun session => !session.closed)).map (Session.uses ref)).sum

theorem sum_filter_eq {β : Type} {l : List β} {f : β → Int} {q : β → Bool} (rest : ∀ x ∈ l, q x = false → f x = 0) :
    ((l.filter q).map f).sum = (l.map f).sum := by
  induction l with
  | nil => rfl
  | cons x _ ih =>
    have tail := ih fun y hy => rest y (mem_cons_of_mem x hy)
    cases h : q x with
    | true => simp [h, tail]
    | false => simp [h, tail, rest x mem_cons_self h]

theorem active_reached {clock : Nat} {events : List (Event Call Nat)}
    (run : (trafficControl lib).run (newWorld clock) events = some w) : Balanced w ∧ ClosedUnbound w := by
  have hs := (soundness_outline lib fun _ _ => True).along (soundness_newWorld lib clock)
    (along_true (newWorld clock) events)
  refine run_invariant (?_ : ∀ w e w', Balanced w ∧ ClosedUnbound w → _ → _ → Balanced w' ∧ ClosedUnbound w') ⟨?_, ?_⟩ hs run
  · rintro w e _ ⟨hb, hu⟩ ⟨⟨_, hh⟩, _⟩ hf
    exact ⟨balanced_fire hh hb hf, closedUnbound_fire hh hu hf⟩
  · intro _
    rfl
  · intro k _ ht
    cases ht

/-- Whatever calls have been made and however their steps are interleaved, `Active` is the number of
policies in the bindings of the sessions and of the bindings that calls are making or releasing. So
it is never negative. When no call is making, swapping or releasing a binding, it is the number of
pairs of an open session and a policy of its binding, and zero when all sessions are closed. -/
theorem active_counts_bindings {lib : Stdlib} {clock : Nat} {events : List (Event Call Nat)} {w : World Shared Call}
    (run : (trafficControl lib).run (newWorld clock) events = some w) (ref : Nat) : (w.shared.manager.heap ref).active =
        (w.shared.manager.sessions.map (Session.uses ref)).sum + (w.calls.map (Call.pending ref)).sum ∧
      0 ≤ (w.shared.manager.heap ref).active ∧
      ((∀ t ∈ w.calls, t.midway = false) →
        (w.shared.manager.heap ref).active = w.shared.manager.openUses ref ∧
        ((∀ session ∈ w.shared.manager.sessions, session.closed = true) →
          (w.shared.manager.heap ref).active = 0)) := by
  obtain ⟨balanced, unbound⟩ := active_reached run
  have equal := balanced ref
  refine ⟨equal, ?_, fun still => ?_⟩
  · have sessions : 0 ≤ (w.shared.manager.sessions.map (Session.uses ref)).sum :=
      sum_nonneg (by simp [Session.uses, uses_nonneg])
    have calls : 0 ≤ (w.calls.map (pending ref)).sum := sum_nonneg (by simp [pending_nonneg])
    omega
  · have calls : (w.calls.map (pending ref)).sum = 0 :=
      sum_eq_zero fun t ht => pending_eq_zero (still t ht) ref
    have closed : ∀ session ∈ w.shared.manager.sessions, session.closed = true → session.uses ref = 0 := by
      intro session hs closed
      obtain ⟨k, there⟩ := mem_iff_getElem?.mp hs
      rcases unbound k session there closed with none | ⟨i, here⟩
      · simp [Session.uses, none, uses]
      · have midway := still _ (mem_of_getElem? here)
        cases midway
    have opened : w.shared.manager.openUses ref = (w.shared.manager.sessions.map (Session.uses ref)).sum :=
      sum_filter_eq fun session hs h => closed session hs (by simpa using h)
    refine ⟨by omega, fun all => ?_⟩
    have zero : (w.shared.manager.sessions.map (Session.uses ref)).sum = 0 :=
      sum_eq_zero fun session hs => closed session hs (all session hs)
    omega

theorem active_counts_bindings_one_session :
    ∃ w, (trafficControl idleStdlib).run (newWorld 1785542400000000000) (openingRun idleConfig 11) = some w ∧
      (w.shared.manager.heap 0).active = w.shared.manager.openUses 0 ∧ w.shared.manager.openUses 0 = 1 := by
  obtain ⟨w, run, hs, one⟩ : ∃ w, (trafficControl idleStdlib).run (newWorld 1785542400000000000) (openingRun idleConfig 11) = some w ∧
      (∀ t ∈ w.calls, t.midway = false) ∧ w.shared.manager.openUses 0 = 1 := exists_of_any (by decide)
  exact ⟨w, run, ((active_counts_bindings run 0).2.2 hs).1, one⟩

/-- In the middle of `Open` the policy counts a session that nobody has yet. -/
theorem active_ahead_of_sessions :
    ∃ w, (trafficControl idleStdlib).run (newWorld 1785542400000000000) (openingRun idleConfig 4) = some w ∧
      (w.shared.manager.heap 0).active = 1 ∧ w.shared.manager.openUses 0 = 0 := by
  exact exists_of_any (by decide)

end AsterCore
