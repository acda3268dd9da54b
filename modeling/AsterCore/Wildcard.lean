import Mathlib.Data.List.Basic

namespace AsterCore.Wildcard

open List

def checkPattern (pattern : List UInt8) : Bool := pattern.dropWhile (· == 42) == []

/-- The loop of `matchByString`, in at most the given number of turns. A position is the rest of the text from it on; `star` has
the pattern after the last `*`, and the text after `lastStar`. -/
def matchLoop : (fuel : Nat) → (pattern s : List UInt8) → (star : Option (List UInt8 × List UInt8)) → Option Bool
  | 0, _, _, _ => none
  | _ + 1, pattern, [], _ => some (checkPattern pattern)
  | fuel + 1, [], _ :: _, star => star.elim (some false) fun (after, next) => matchLoop fuel after next (some (after, next.tail))
  | fuel + 1, c :: pattern, b :: s, star =>
    if c = 63 then matchLoop fuel pattern s star
    else if c = 42 then matchLoop fuel pattern (b :: s) (some (pattern, s))
    else if c = b then matchLoop fuel pattern s star
    else star.elim (some false) fun (after, next) => matchLoop fuel after next (some (after, next.tail))

def matchByString (fuel : Nat) (pattern s : List UInt8) : Option Bool := matchLoop fuel pattern s none

/-- `Match`, in at most the given number of turns. -/
def Match (fuel : Nat) (pattern s : List UInt8) : Option Bool :=
  if pattern = [] then some (s == pattern)
  else if pattern = [42] ∨ s = pattern then some true
  else matchByString fuel pattern s

inductive Matches : (pattern s : List UInt8) → Prop
  | nil : Matches [] []
  | star (skipped : List UInt8) {pattern s : List UInt8} (rest : Matches pattern s) : Matches (42 :: pattern) (skipped ++ s)
  | any (b : UInt8) {pattern s : List UInt8} (rest : Matches pattern s) : Matches (63 :: pattern) (b :: s)
  | byte {c : UInt8} (noStar : c ≠ 42) (noAny : c ≠ 63) {pattern s : List UInt8} (rest : Matches pattern s) :
    Matches (c :: pattern) (c :: s)

section

variable {c b : UInt8} {p q s : List UInt8}

theorem matches_star : Matches (42 :: p) s ↔ ∃ k, Matches p (s.drop k) := by
  constructor
  · intro h
    cases h with
    | star skipped rest => exact ⟨skipped.length, by rwa [drop_left]⟩
    | byte no => exact absurd rfl no
  · rintro ⟨k, h⟩
    rw [← take_append_drop k s]
    exact .star _ h

theorem star_more (s : List UInt8) : Matches (42 :: p) s ↔ Matches p s ∨ Matches (42 :: p) s.tail := by
  rw [matches_star, matches_star]
  constructor
  · rintro ⟨k, hk⟩
    cases k with
    | zero => exact .inl hk
    | succ k => exact .inr ⟨k, by rwa [← drop_one, drop_drop, Nat.add_comm]⟩
  · rintro (hk | ⟨k, hk⟩)
    · exact ⟨0, hk⟩
    · exact ⟨1 + k, by rwa [← drop_drop, drop_one]⟩

theorem matches_cons (hc : c ≠ 42) : Matches (c :: p) s ↔ ∃ b t, s = b :: t ∧ (c = 63 ∨ c = b) ∧ Matches p t := by
  constructor
  · intro h
    cases h with
    | star => exact absurd rfl hc
    | any b rest => exact ⟨b, _, rfl, .inl rfl, rest⟩
    | byte _ _ rest => exact ⟨c, _, rfl, .inr rfl, rest⟩
  · rintro ⟨b, t, rfl, rfl | rfl, h⟩
    · exact .any b h
    · by_cases any : c = 63
      · subst any
        exact .any 63 h
      · exact .byte hc any h

theorem matches_self (p : List UInt8) : Matches p p := by
  induction p with
  | nil => exact .nil
  | cons c p ih =>
    by_cases hc : c = 42
    · subst hc
      exact .star [42] ih
    · exact (matches_cons hc).mpr ⟨c, p, rfl, .inr rfl, ih⟩

theorem checkPattern_iff : checkPattern p = true ↔ Matches p [] := by
  induction p with
  | nil => exact ⟨fun _ => .nil, fun _ => rfl⟩
  | cons c p ih =>
    by_cases hc : c = 42
    · subst hc
      rw [matches_star]
      simpa [checkPattern] using ih
    · rw [matches_cons hc]
      simp [checkPattern, hc]

theorem matches_drop (hq : 42 ∉ q) (h : Matches (q ++ p) s) : Matches p (s.drop q.length) := by
  induction q generalizing s with
  | nil => exact h
  | cons c q ih =>
    obtain ⟨hc, hq⟩ := not_or.mp (mem_cons.not.mp hq)
    obtain ⟨b, t, rfl, _, h⟩ := (matches_cons (Ne.symm hc)).mp h
    exact ih hq h

/-- Since the last `*` the loop has gone over patterns that take one byte each. -/
def Since (pattern s : List UInt8) (star : Option (List UInt8 × List UInt8)) : Prop :=
  ∀ x ∈ star, ∃ between start : List UInt8, x = (between ++ pattern, start.tail) ∧ 42 ∉ between ∧ s = start.drop between.length

/-- What is left to the loop: a match of the rest, or one with more for the last `*`. -/
def Left (pattern s : List UInt8) (star : Option (List UInt8 × List UInt8)) : Prop :=
  Matches pattern s ∨ ∃ x ∈ star, Matches (42 :: x.1) x.2

def Answers (pattern s : List UInt8) (star : Option (List UInt8 × List UInt8)) : Prop :=
  ∃ answer, (answer = true ↔ Left pattern s star) ∧ ∃ n, ∀ fuel, matchLoop (n + fuel) pattern s star = some answer

/-- More for the last `*` gives nothing that a later `*` or the end of the string does not give. -/
theorem Since.left_iff {star : Option (List UInt8 × List UInt8)} (h : Since p s star)
    (later : ∀ k, Matches p (s.drop k) → Matches p s) : Left p s star ↔ Matches p s := by
  refine ⟨?_, .inl⟩
  rintro (here | ⟨_, hx, hm⟩)
  · exact here
  · obtain ⟨between, start, rfl, plain, rfl⟩ := h _ hx
    obtain ⟨k, hm⟩ := matches_star.mp hm
    have := matches_drop plain hm
    rw [← drop_one, drop_drop, drop_drop, show 1 + (k + between.length) = between.length + (k + 1) by omega, ← drop_drop] at this
    exact later _ this

end

section

variable {c b : UInt8} {pattern s : List UInt8} {star : Option (List UInt8 × List UInt8)}

theorem Since.step (h : Since (c :: pattern) (b :: s) star) (hc : c ≠ 42) : Since pattern s star := by
  intro x hx
  obtain ⟨between, start, rfl, plain, eq⟩ := h x hx
  refine ⟨between ++ [c], start, by simp, by simp [plain, Ne.symm hc], ?_⟩
  rw [length_append, length_singleton, ← drop_drop, ← eq]
  rfl

theorem since_star (pattern : List UInt8) (next : List UInt8) : Since pattern next (some (pattern, next.tail)) := by
  rintro _ ⟨⟩
  exact ⟨[], next, rfl, by simp, rfl⟩

theorem Answers.of_turn {pattern' s' : List UInt8} {star' : Option (List UInt8 × List UInt8)} (h : Answers pattern' s' star')
    (iff : Left pattern' s' star' ↔ Left pattern s star)
    (turn : ∀ fuel, matchLoop (fuel + 1) pattern s star = matchLoop fuel pattern' s' star') : Answers pattern s star := by
  obtain ⟨answer, ha, n, run⟩ := h
  refine ⟨answer, ha.trans iff, n + 1, fun fuel => ?_⟩
  rw [Nat.add_right_comm, turn, run]

theorem answers_back (no : ¬ Matches pattern s)
    (turn : ∀ fuel, matchLoop (fuel + 1) pattern s star =
      star.elim (some false) fun x => matchLoop fuel x.1 x.2 (some (x.1, x.2.tail)))
    (again : ∀ x ∈ star, Answers x.1 x.2 (some (x.1, x.2.tail))) : Answers pattern s star := by
  cases star with
  | none =>
    refine ⟨false, ?_, 1, fun fuel => by rw [Nat.add_comm, turn]; rfl⟩
    simp [Left, no]
  | some x =>
    refine (again x rfl).of_turn ?_ turn
    simp [Left, no, star_more x.2]

end

/-- Every turn takes a byte of the pattern or of the string, or goes back with one more byte for the last `*`. -/
theorem matchLoop_answers (pattern s : List UInt8) (star : Option (List UInt8 × List UInt8)) (h : Since pattern s star) :
    Answers pattern s star := by
  have bound : ∀ x ∈ star, s.length ≤ x.2.length + 1 := by
    intro x hx
    obtain ⟨between, start, rfl, -, rfl⟩ := h x hx
    simp only [length_drop, length_tail]
    omega
  have back : ∀ b t, s = b :: t → ∀ x ∈ star, Answers x.1 x.2 (some (x.1, x.2.tail)) := fun b t eq x hx =>
    matchLoop_answers x.1 x.2 _ (since_star _ _)
  match pattern, s with
  | pattern, [] =>
    refine ⟨checkPattern pattern, ?_, 1, fun fuel => by rw [Nat.add_comm, matchLoop]⟩
    rw [checkPattern_iff, h.left_iff (by simp)]
  | [], b :: s => exact answers_back (by rintro ⟨⟩) (fun fuel => by rw [matchLoop]) (back b s rfl)
  | c :: pattern, b :: s =>
    by_cases hc : c = 42
    · subst hc
      refine (matchLoop_answers pattern (b :: s) (some (pattern, s)) (since_star pattern (b :: s))).of_turn ?_ fun fuel => by simp [matchLoop]
      have later : ∀ k, Matches (42 :: pattern) ((b :: s).drop k) → Matches (42 :: pattern) (b :: s) := by
        simp only [matches_star, drop_drop]
        rintro k ⟨j, hj⟩
        exact ⟨_, hj⟩
      rw [h.left_iff later]
      simp [Left, star_more (b :: s)]
    · by_cases same : c = 63 ∨ c = b
      · refine (matchLoop_answers pattern s star (h.step hc)).of_turn ?_ fun fuel => ?_
        · simp [Left, matches_cons hc, same]
        · by_cases any : c = 63
          · rw [matchLoop, if_pos any]
          · rw [matchLoop, if_neg any, if_neg hc, if_pos (same.resolve_left any)]
      · obtain ⟨any, ne⟩ := not_or.mp same
        refine answers_back ?_ (fun fuel => ?_) (back b s rfl)
        · simp [matches_cons hc, same]
        · rw [matchLoop, if_neg any, if_neg hc, if_neg ne]
termination_by (star.elim (s.length + 1) (·.2.length), s.length, pattern.length)
decreasing_by
  all_goals simp only [Prod.lex_def]
  · obtain rfl : star = some x := hx
    subst eq
    simp only [Option.elim_some, length_cons, length_tail]
    omega
  · cases star with
    | none =>
      simp only [Option.elim_none, Option.elim_some, length_cons]
      omega
    | some x =>
      have := bound x rfl
      simp at this ⊢
      omega
  · cases star <;> simp

/-- `Match` ends, and is true exactly for the strings of the pattern. -/
theorem match_iff (pattern s : List UInt8) :
    ∃ answer, (answer = true ↔ Matches pattern s) ∧ ∃ n, ∀ fuel, Match (n + fuel) pattern s = some answer := by
  unfold Match
  split
  next empty =>
    subst empty
    refine ⟨s == [], ?_, 0, fun _ => rfl⟩
    rw [beq_iff_eq]
    constructor
    · rintro rfl
      exact .nil
    · rintro ⟨⟩
      rfl
  · split
    next easy =>
      refine ⟨true, iff_of_true rfl ?_, 0, fun _ => rfl⟩
      rcases easy with rfl | rfl
      · exact matches_star.mpr ⟨s.length, by rw [drop_length]; exact .nil⟩
      · exact matches_self s
    · obtain ⟨answer, ha, n, run⟩ := matchLoop_answers pattern s none nofun
      refine ⟨answer, ha.trans ?_, n, run⟩
      simp [Left]

end AsterCore.Wildcard
