import Mathlib.Data.List.Infix

namespace AsterCore

open List

variable {σ ε : Type} {step : σ → ε → σ} {ok : σ → ε → Prop} {inv : σ → Prop} {s : σ} {events : List ε}

/-- Every event of a run meets the condition in the state that it finds. -/
def MeetsAlong (step : σ → ε → σ) (ok : σ → ε → Prop) : σ → List ε → Prop
  | _, [] => True
  | s, e :: events => ok s e ∧ MeetsAlong step ok (step s e) events

theorem foldl_invariant (hk : ∀ {s e}, inv s → ok s e → inv (step s e)) (hs : inv s)
    (ha : MeetsAlong step ok s events) : inv (events.foldl step s) := by
  induction events generalizing s with
  | nil => exact hs
  | cons e _ ih => exact ih (hk hs ha.1) ha.2

/-- A condition that is exact for one step is exact for runs. -/
theorem foldl_invariant_iff (exact : ∀ {s e}, inv s → (inv (step s e) ↔ ok s e)) (hs : inv s) :
    (∀ before, before <+: events → inv (before.foldl step s)) ↔ MeetsAlong step ok s events := by
  induction events generalizing s with
  | nil => simpa [MeetsAlong] using hs
  | cons e events ih =>
    simp only [prefix_cons_iff, MeetsAlong, ← exact hs]
    constructor
    · intro all
      have hf := all [e] (.inr ⟨[], rfl, nil_prefix⟩)
      exact ⟨hf, (ih hf).mp fun before le => all (e :: before) (.inr ⟨before, rfl, le⟩)⟩
    · rintro ⟨hf, hr⟩ before (rfl | ⟨before, rfl, le⟩)
      · exact hs
      · exact (ih hf).mpr hr before le

end AsterCore
