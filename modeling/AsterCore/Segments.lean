import Mathlib.Data.List.Basic
import Mathlib.Order.Basic

namespace AsterCore.Segments

open List

variable {α β γ ε : Type} {wants : ε → Option Nat} {limit limit' : Nat → Prop} {n m : Nat} {r : Except ε α}
  {f g : List β → Except ε α}

/-- How much data an outcome asks for; an outcome that asks for nothing is final. -/
def asks (wants : ε → Option Nat) : Except ε α → Option Nat
  | .error e => wants e
  | .ok _ => none

/-- The verdict `now` on `size` elements and the verdict `later` on `extra` more: if `now` is final it stays, and if it asks
for more, it asks for more than there is, within the limit, and stays until that much is there. -/
def Stays (wants : ε → Option Nat) (limit : Nat → Prop) (size extra : Nat) (now later : Except ε α) : Prop :=
  (∀ length ∈ asks wants now, size < length ∧ limit length) ∧
  ((∀ length ∈ asks wants now, size + extra < length) → later = now)

def Settles (wants : ε → Option Nat) (limit : Nat → Prop) (n : Nat) (f : List β → Except ε α) : Prop :=
  ∀ data more : List β, n ≤ data.length → Stays wants limit data.length more.length (f data) (f (data ++ more))

theorem Stays.refl {size extra : Nat} (final : asks wants r = none) : Stays wants limit size extra r r := by
  refine ⟨fun length mem => ?_, fun _ => rfl⟩
  rw [final] at mem
  cases mem

namespace Settles

theorem const (final : asks wants r = none) : Settles wants limit n (fun _ : List β => r) := by
  intro _ _ _
  exact Stays.refl final

theorem weaken (h : Settles wants limit n f) (imp : ∀ length, limit length → limit' length) : Settles wants limit' n f := by
  intro data more bound
  obtain ⟨asked, stays⟩ := h data more bound
  exact ⟨fun length mem => ⟨(asked length mem).1, imp length (asked length mem).2⟩, stays⟩

theorem demand {e : ε} {length : Nat} (asked : wants e = some length) (within : limit length)
    (h : Settles wants limit (max n length) g) :
    Settles wants limit n (fun data => if data.length < length then .error e else g data) := by
  intro data more _
  by_cases short : data.length < length
  · simp only [short, if_true]
    constructor
    · intro asking mem
      rw [show asking = length from Option.some.inj (mem.symm.trans asked)]
      exact ⟨short, within⟩
    · intro still
      have := still length asked
      rw [if_pos (by rw [length_append]; exact this)]
  · simp only [short, if_false]
    rw [if_neg (by rw [length_append]; omega)]
    exact h data more (by omega)

theorem read {v : List β → γ} {g : γ → List β → Except ε α} (there : ∀ data more, n ≤ data.length → v (data ++ more) = v data)
    (h : ∀ data, n ≤ data.length → Settles wants limit n (g (v data))) :
    Settles wants limit n (fun data => g (v data) data) := by
  intro data more bound
  simp only [there data more bound]
  exact h data bound data more bound

theorem ite {c : Prop} [Decidable c] (yes : c → Settles wants limit n f) (no : ¬c → Settles wants limit n g) :
    Settles wants limit n (fun data => if c then f data else g data) := by
  by_cases h : c
  · simpa only [h, if_true] using yes h
  · simpa only [h, if_false] using no h

theorem take {k : Nat} (h : Settles wants (· ≤ k) n g) (le : n ≤ k) :
    Settles wants (· ≤ k) n (fun data => g (data.take k)) := by
  intro data more _
  have there : n ≤ (data.take k).length := by
    rw [length_take]
    omega
  obtain ⟨asked, stays⟩ := h (data.take k) (more.take (k - data.length)) there
  rw [← take_append] at stays
  refine ⟨fun length mem => ?_, fun still => stays fun length mem => ?_⟩
  · obtain ⟨short, within⟩ := asked length mem
    rw [length_take] at short
    exact ⟨by omega, within⟩
  · have := still length mem
    simp only [length_take]
    omega

end Settles

theorem Settles.final (h : Settles wants limit 0 f) {data : List β} {k l : Nat} (le : k ≤ l)
    (final : asks wants (f (data.take k)) = none) : f (data.take l) = f (data.take k) := by
  have split : data.take l = data.take k ++ (data.take l).drop k := by
    conv_lhs => rw [← take_append_drop k (data.take l), take_take, Nat.min_eq_left le]
  rw [split]
  refine (h _ _ (Nat.zero_le _)).2 fun length mem => ?_
  rw [final] at mem
  cases mem

theorem Settles.asking (h : Settles wants limit 0 f) {data : List β} {k length : Nat} (le : k ≤ data.length)
    (asking : asks wants (f (data.take k)) = some length) :
    k < length ∧ limit length ∧ ∀ l, k ≤ l → l < length → asks wants (f (data.take l)) = some length := by
  have size : (data.take k).length = k := by rw [length_take, Nat.min_eq_left le]
  obtain ⟨_, within⟩ := (h (data.take k) [] (Nat.zero_le _)).1 length asking
  refine ⟨by omega, within, fun l from_ below => ?_⟩
  have split : data.take l = data.take k ++ (data.take l).drop k := by
    conv_lhs => rw [← take_append_drop k (data.take l), take_take, Nat.min_eq_left from_]
  have stays := (h (data.take k) ((data.take l).drop k) (Nat.zero_le _)).2 fun asked mem => by
    rw [show asked = length from Option.some.inj (mem.symm.trans asking), size, length_drop, length_take]
    omega
  rw [split, stays, asking]

end AsterCore.Segments
