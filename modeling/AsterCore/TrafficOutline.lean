import AsterCore.TrafficSessionSteps
import AsterCore.TrafficConfigureSteps

namespace AsterCore

open Manager

section Own

variable {lib : Stdlib} {s : Shared} {a : Action}

/-- What a step does, seen by the other calls: it fits the memory, it publishes a runtime only
behind the gate of the old one, and it changes a session only under the lock of the session. -/
structure GuardedAct (lib : Stdlib) (m : Manager) (held : List Lock) (a : Action) : Prop where
  fits : a.Fits lib m
  publish : (∀ r, a ≠ .publish r) ∨ Lock.configureMu ∈ held ∧ Lock.recordGateWrite m.runtime.ref ∈ held
  session : ∀ k, ((∀ b, a ≠ .bind k b) ∧ a ≠ .close k) ∨ Lock.bindMu k ∈ held

theorem SessionAction.guarded {m : Manager} {k : Nat} {held : List Lock} (act : SessionAction lib m k held a) :
    GuardedAct lib m held a := by
  refine ⟨act.fits, .inl ?_, fun j => ?_⟩
  · rintro r rfl
    rcases act.quiet with quiet | ⟨⟨b, eq⟩ | eq, _⟩
    · exact quiet
    · cases eq
    · cases eq
  · rcases act.quiet with quiet | ⟨change, lock⟩
    · refine .inl ⟨?_, ?_⟩
      · rintro b rfl
        exact quiet
      · rintro rfl
        exact quiet
    · by_cases same : j = k
      · exact .inr (same ▸ lock)
      · refine .inl ⟨?_, ?_⟩
        · rintro b rfl
          rcases change with ⟨b', eq⟩ | eq
          · cases eq
            exact same rfl
          · cases eq
        · rintro rfl
          rcases change with ⟨b', eq⟩ | eq
          · cases eq
          · cases eq
            exact same rfl

theorem GuardedAct.ofOther {m : Manager} {held : List Lock} (fits : a.Fits lib m)
    (publish : (∀ r, a ≠ .publish r) ∨ Lock.configureMu ∈ held ∧ Lock.recordGateWrite m.runtime.ref ∈ held)
    (bind : ∀ k b, a ≠ .bind k b) (close : ∀ k, a ≠ .close k) : GuardedAct lib m held a :=
  ⟨fits, publish, fun k => .inl ⟨bind k, close k⟩⟩

theorem Call.own {t t' : Call} (hs : s.manager.Sound lib) (good : t.Good lib s.manager) (h : t.next lib s = some (a, t')) :
    GuardedAct lib s.manager t.held a ∧ t'.Good lib (s.manager.act lib a) := by
  cases step_of_next h with
  | @opening flow pc pc' _ step =>
    obtain ⟨hf, hq, hg'⟩ := OpenPc.own hs good step
    have same : (s.manager.act lib a).runtime = s.manager.runtime := by
      apply act_runtime
      rintro r rfl
      rcases hq with hq | ⟨b, eq⟩
      · exact hq
      · cases eq
    have hg : GuardedAct lib s.manager (Call.opening flow pc).held a := by
      refine .ofOther hf (.inl ?_) ?_ ?_
      all_goals
        intros
        rintro rfl
        rcases hq with hq | ⟨b, eq⟩
        · exact hq
        · cases eq
    refine ⟨hg, Call.Good.stable (t := .opening flow pc') hg' (fits_evolves hf) (.inl same) ?_⟩
    intro k _ _
    exact .inr (by simp [Call.held])
  | @recording k _ _ _ _ _ _ ht step =>
    obtain ⟨session', ht', good⟩ := good
    rw [ht] at ht'
    cases ht'
    obtain ⟨act, hg', hl⟩ := RecordPc.own hs ht good step
    obtain ⟨session', ht', flow, hcl, same⟩ := act.after ht
    refine ⟨act.guarded, session', ht', hg'.stable (k := k) (fits_evolves act.fits) flow hcl ?_ ?_⟩
    · intro hw
      by_contra hc
      rw [hl fun hq => hc (same hq)] at hw
      cases hw
    · exact fun _ => act.runtime
  | @waiting _ _ _ _ _ _ ht step =>
    obtain ⟨session', ht', good⟩ := good
    rw [ht] at ht'
    cases ht'
    obtain ⟨act, hg', hl⟩ := WaitPc.own hs ht good step
    obtain ⟨session', ht', flow, _, same⟩ := act.after ht
    refine ⟨act.guarded, session', ht', hg'.stable (fits_evolves act.fits) flow ?_⟩
    intro hw
    by_contra hc
    rw [hl fun hq => hc (same hq)] at hw
    cases hw
  | closing ht step =>
    obtain ⟨_, ht', good⟩ := good
    rw [ht] at ht'
    cases ht'
    obtain ⟨act, hg'⟩ := ClosePc.own hs ht good step
    exact ⟨act.guarded, hg'⟩
  | configuring step =>
    obtain ⟨hf, hg', hp, hk⟩ := ConfigurePc.own hs good step
    refine ⟨.ofOther hf hp ?_ ?_, hg'⟩
    all_goals
      intros
      rintro rfl
      rcases hk with hq | ⟨stage, eq⟩ | ⟨r, eq⟩
      · exact hq
      · cases eq
      · cases eq
  | @flushing _ _ _ _ step =>
    have hq := (FlushPc.next_isFlush step).quiet
    refine ⟨.ofOther (hq.fits _ _) (.inl ?_) ?_ ?_, trivial⟩
    all_goals
      intros
      rintro rfl
      exact hq

end Own

def soundness (lib : Stdlib) : Program.Assertions Shared Call where
  memory s _ := s.manager.Sound lib
  call s _ t := t.Good lib s.manager

theorem Call.Good.entry {lib : Stdlib} {s : Shared} {t : Call} (h : t.entry s = true) : t.Good lib s.manager := by
  have ht : ∀ {k : Nat}, decide (k < s.manager.sessions.length) = true →
      ∃ session, s.manager.sessions[k]? = some session := by
    intro k lt
    exact ⟨_, List.getElem?_eq_getElem (by simpa using lt)⟩
  unfold Call.entry at h
  split at h
  · trivial
  · trivial
  · trivial
  · obtain ⟨session, hh⟩ := ht h
    exact ⟨session, hh, trivial⟩
  · obtain ⟨session, hh⟩ := ht h
    exact ⟨session, hh, trivial⟩
  · obtain ⟨session, hh⟩ := ht h
    exact ⟨session, hh, trivial⟩
  · cases h

theorem soundness_outline (lib : Stdlib) (ok : World Shared Call → Event Call Nat → Prop) :
    (trafficControl lib).Outline ok (soundness lib) where
  entry hh _ entry := ⟨hh.1, Call.Good.entry entry⟩
  environment hh _ := hh
  own hh _ step :=
    have own := Call.own hh.1 (hh.2 _ _ step.here) step.next
    ⟨sound_act hh.1 own.1.fits, own.2⟩
  stable := by
    intro w i j t u a _ hh _ step hth _ ha
    obtain ⟨hg, _⟩ := Call.own hh.1 (hh.2 i t step.here) step.next
    have hf : ∀ {l l' : Lock}, l ∈ t.held → l.clash l' = true → l' ∉ u.held := by
      intro l l' hm hcl ht
      have := ha l (List.mem_append_left _ hm) l' ht
      rw [show (trafficControl lib).clash l l' = l.clash l' from rfl, hcl] at this
      cases this
    refine Call.Good.stable (hh.2 j u hth) (fits_evolves hg.fits) ?_ ?_
    · rcases hg.publish with ho | ⟨hc, gate⟩
      · exact .inl (act_runtime ho)
      · exact .inr ⟨hf gate (by simp [Lock.clash]), hf hc rfl⟩
    · intro k _ here
      rcases hg.session k with ⟨hb, hce⟩ | hl
      · exact .inl (act_session hb hce here)
      · exact .inr (hf hl (by simp [Lock.clash]))

theorem soundness_newWorld (lib : Stdlib) (clock : Nat) :
    (trafficControl lib).Exclusive (newWorld clock) ∧ (soundness lib).Holds (newWorld clock) := by
  have hk : (newWorld clock).shared.manager.Knows (newWorld clock).shared.manager.runtime := by
    refine ⟨le_refl _, fun _ => rfl, ?_, List.nodup_nil, fun _ => rfl⟩
    intro p hp
    cases hp
  refine ⟨?_, ⟨hk, Nat.one_pos, GoMap.Pointers.empty _, ReportTable.wellFormed_empty, ?_⟩, ?_⟩
  · intro i j t u _ hh
    cases hh
  · intro _ hs
    cases hs
  · intro i t hh
    cases hh

end AsterCore
