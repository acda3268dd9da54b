import Mathlib.Algebra.BigOperators.Group.List.Basic
import Mathlib.Logic.Relation
import Mathlib.Order.RelClasses

namespace AsterCore

open List Option

/-- A program of calls that share a memory. `next` is the next atomic step of a call, with what it
does to the memory, and `none` once the call has returned. A call keeps the locks `held` between
its steps; a step waits until nobody else holds a lock that clashes with one it `takes`. -/
structure Program (σ τ α ε L : Type) where
  next : σ → τ → Option (α × τ)
  perform : Nat → α → σ → σ
  environment : ε → σ → σ
  entry : σ → τ → Bool
  held : τ → List L
  takes : τ → List L
  clash : L → L → Bool
  clash_symm : ∀ a b, clash a b = clash b a
  entry_held : ∀ {s t}, entry s t = true → held t = []
  next_held : ∀ {s t a t'}, next s t = some (a, t') → ∀ l ∈ held t', l ∈ held t ∨ l ∈ takes t

/-- The shared memory and the calls in progress; a call is known by its position. -/
structure World (σ τ : Type) where
  shared : σ
  calls : List τ

inductive Event (τ ε : Type)
  | call (t : τ)
  | step (i : Nat)
  | environment (e : ε)

namespace Program

variable {σ τ α ε L : Type} (p : Program σ τ α ε L)

def Apart (locks others : List L) : Prop := ∀ a ∈ locks, ∀ b ∈ others, p.clash a b = false

/-- The locks are free for the call `i`. -/
def Free (calls : List τ) (i : Nat) (locks : List L) : Prop :=
  ∀ e ∈ calls.zipIdx, e.2 ≠ i → p.Apart locks (p.held e.1)

instance (calls : List τ) (i : Nat) (locks : List L) : Decidable (p.Free calls i locks) :=
  inferInstanceAs (Decidable (∀ e ∈ calls.zipIdx, e.2 ≠ i → ∀ a ∈ locks, ∀ b ∈ p.held e.1, p.clash a b = false))

def fire (w : World σ τ) : Event τ ε → Option (World σ τ)
  | .call t => if p.entry w.shared t then some { w with calls := w.calls ++ [t] } else none
  | .environment e => some { w with shared := p.environment e w.shared }
  | .step i =>
    match w.calls[i]? with
    | none => none
    | some t =>
      if p.Free w.calls i (p.takes t) then
        match p.next w.shared t with
        | none => none
        | some (a, t') => some ⟨p.perform i a w.shared, w.calls.set i t'⟩
      else none

def run : World σ τ → List (Event τ ε) → Option (World σ τ)
  | w, [] => some w
  | w, e :: events =>
    match p.fire w e with
    | none => none
    | some w' => run w' events

/-- Every event of the run meets the condition in the world it meets. -/
def Along (ok : World σ τ → Event τ ε → Prop) : World σ τ → List (Event τ ε) → Prop
  | _, [] => True
  | w, e :: events => ok w e ∧ ∀ w', p.fire w e = some w' → Along ok w' events

instance decidableAlong {ok : World σ τ → Event τ ε → Prop} [∀ w e, Decidable (ok w e)] :
    ∀ (w : World σ τ) (events : List (Event τ ε)), Decidable (p.Along ok w events)
  | _, [] => isTrue trivial
  | w, e :: events =>
    match h : p.fire w e with
    | none => decidable_of_iff (ok w e) ⟨fun meets => ⟨meets, fun w' fired => by cases h ▸ fired⟩, And.left⟩
    | some w' =>
      have : Decidable (p.Along ok w' events) := decidableAlong w' events
      decidable_of_iff (ok w e ∧ p.Along ok w' events) (by simp [Along, h])

def Exclusive (w : World σ τ) : Prop :=
  ∀ (i j : Nat) t u, i ≠ j → w.calls[i]? = some t → w.calls[j]? = some u → p.Apart (p.held t) (p.held u)

structure Steps (w : World σ τ) (i : Nat) (t : τ) (a : α) (t' : τ) : Prop where
  here : w.calls[i]? = some t
  next : p.next w.shared t = some (a, t')
  free : ∀ j u, j ≠ i → w.calls[j]? = some u → p.Apart (p.takes t) (p.held u)

variable {p}

variable {calls : List τ} {i : Nat} {w w' : World σ τ} {e : Event τ ε} {events : List (Event τ ε)}

theorem free_iff {locks : List L} : p.Free calls i locks ↔ ∀ j u, j ≠ i → calls[j]? = some u → p.Apart locks (p.held u) := by
  constructor
  · intro h j u ne ht
    exact h (u, j) (mem_zipIdx_iff_getElem?.mpr ht) ne
  · intro h e mem ne
    exact h e.2 e.1 ne (mem_zipIdx_iff_getElem?.mp mem)

theorem fire_cases (h : p.fire w e = some w') :
    (∃ t, e = .call t ∧ p.entry w.shared t = true ∧ w' = { w with calls := w.calls ++ [t] }) ∨
    (∃ d, e = .environment d ∧ w' = { w with shared := p.environment d w.shared }) ∨
    (∃ i t a t', e = .step i ∧ p.Steps w i t a t' ∧ w' = ⟨p.perform i a w.shared, w.calls.set i t'⟩) := by
  cases e with
  | call t =>
    simp only [fire] at h
    split at h
    next he => exact .inl ⟨t, rfl, he, (some.inj h).symm⟩
    · cases h
  | environment d => exact .inr (.inl ⟨d, rfl, (some.inj h).symm⟩)
  | step i =>
    simp only [fire] at h
    split at h
    · cases h
    next t hh =>
      split at h
      next hf =>
        split at h
        · cases h
        next a t' next =>
          exact .inr (.inr ⟨i, t, a, t', rfl, ⟨hh, next, free_iff.mp hf⟩, (some.inj h).symm⟩)
      · cases h

theorem fire_step {t t' : τ} {a : α} (h : p.Steps w i t a t') :
    p.fire w (.step i) = some ⟨p.perform i a w.shared, w.calls.set i t'⟩ := by
  simp only [fire, h.here, h.next, if_pos (free_iff.mpr h.free)]

theorem run_cons {w'' : World σ τ} (h : p.run w (e :: events) = some w'') :
    ∃ w', p.fire w e = some w' ∧ p.run w' events = some w'' := by
  unfold run at h
  split at h
  · cases h
  next w' hf => exact ⟨w', hf, h⟩

theorem run_append {first second : List (Event τ ε)} :
    p.run w (first ++ second) = (p.run w first).bind (fun w' => p.run w' second) := by
  induction first generalizing w with
  | nil => rfl
  | cons e _ ih =>
    simp only [cons_append, run]
    cases p.fire w e with
    | none => rfl
    | some => exact ih

variable {ok : World σ τ → Event τ ε → Prop}

theorem run_invariant {inv : World σ τ → Prop} (hk : ∀ w e w', inv w → ok w e → p.fire w e = some w' → inv w')
    (hs : inv w) (ha : p.Along ok w events) (h : p.run w events = some w') : inv w' := by
  induction events generalizing w with
  | nil =>
    cases h
    exact hs
  | cons e _ ih =>
    obtain ⟨mid, hf, hr⟩ := run_cons h
    exact ih (hk w e mid hs ha.1 hf) (ha.2 mid hf) hr

theorem along_invariant {inv : World σ τ → Prop}
    (hk : ∀ w e w', inv w → ok w e → p.fire w e = some w' → inv w') (hs : inv w) (ha : p.Along ok w events) :
    p.Along (fun w e => inv w ∧ ok w e) w events := by
  induction events generalizing w with
  | nil => trivial
  | cons e _ ih =>
    exact ⟨⟨hs, ha.1⟩, fun w' hf => ih (hk w e w' hs ha.1 hf) (ha.2 w' hf)⟩

theorem along_true (w : World σ τ) (events : List (Event τ ε)) : p.Along (fun _ _ => True) w events := by
  induction events generalizing w with
  | nil => trivial
  | cons _ _ ih => exact ⟨trivial, fun w' _ => ih w'⟩

theorem along_append {v : World σ τ} {first second : List (Event τ ε)}
    (ha : p.Along ok w (first ++ second)) (h : p.run w first = some v) : p.Along ok w first ∧ p.Along ok v second := by
  induction first generalizing w with
  | nil =>
    cases h
    exact ⟨trivial, ha⟩
  | cons _ _ ih =>
    obtain ⟨mid, hf, hr⟩ := run_cons h
    refine ⟨⟨ha.1, fun w' hf' => ?_⟩, (ih (ha.2 mid hf) hr).2⟩
    rw [hf] at hf'
    cases hf'
    exact (ih (ha.2 mid hf) hr).1

theorem along_imp {ok' : World σ τ → Event τ ε → Prop} (imp : ∀ w e, ok w e → ok' w e)
    (ha : p.Along ok w events) : p.Along ok' w events := by
  induction events generalizing w with
  | nil => trivial
  | cons e _ ih => exact ⟨imp w e ha.1, fun w' hf => ih (ha.2 w' hf)⟩

theorem along_and {ok' : World σ τ → Event τ ε → Prop} (ha : p.Along ok w events) (ha' : p.Along ok' w events) :
    p.Along (fun w e => ok w e ∧ ok' w e) w events := by
  induction events generalizing w with
  | nil => trivial
  | cons _ _ ih =>
    exact ⟨⟨ha.1, ha'.1⟩, fun w' hf => ih (ha.2 w' hf) (ha'.2 w' hf)⟩

theorem Apart.symm {locks others : List L} (h : p.Apart locks others) : p.Apart others locks := by
  intro b hb a ha
  rw [p.clash_symm]
  exact h a ha b hb

theorem getElem?_set_cases {j : Nat} {t' u : τ} (h : (calls.set i t')[j]? = some u) :
    (j = i ∧ u = t') ∨ (j ≠ i ∧ calls[j]? = some u) := by
  rw [getElem?_set] at h
  split at h
  next hs =>
    split at h
    · exact .inl ⟨hs.symm, (some.inj h).symm⟩
    · cases h
  next ho => exact .inr ⟨fun eq => ho eq.symm, h⟩

theorem sum_map_set {β M : Type} [AddCommGroup M] {l : List β} {x : β} (f : β → M) (y : β)
    (ht : l[i]? = some x) : ((l.set i y).map f).sum = (l.map f).sum + (f y - f x) := by
  obtain ⟨lt, hh⟩ := List.getElem?_eq_some_iff.mp ht
  rw [map_set, sum_set', dif_pos (by simpa using lt)]
  simp only [getElem_map, hh, neg_add_eq_sub]

theorem getElem?_append_cases {j : Nat} {t u : τ} (h : (calls ++ [t])[j]? = some u) :
    (j = calls.length ∧ u = t) ∨ (j < calls.length ∧ calls[j]? = some u) := by
  rw [getElem?_append] at h
  split at h
  next old => exact .inr ⟨old, h⟩
  next new =>
    rw [getElem?_singleton] at h
    split at h
    next zero => exact .inl ⟨by omega, (some.inj h).symm⟩
    · cases h

theorem exclusive_fire (excl : p.Exclusive w) (h : p.fire w e = some w') : p.Exclusive w' := by
  rcases fire_cases h with ⟨t, _, he, rfl⟩ | ⟨d, _, rfl⟩ | ⟨i, t, a, t', _, hs, rfl⟩
  · have hn := p.entry_held he
    intro j k u v ne hj hk
    rcases getElem?_append_cases hj with ⟨_, rfl⟩ | ⟨_, hj⟩
    · rw [hn]
      intro a ha
      cases ha
    · rcases getElem?_append_cases hk with ⟨_, rfl⟩ | ⟨_, hk⟩
      · rw [hn]
        intro a _ b hb
        cases hb
      · exact excl j k u v ne hj hk
  · exact excl
  · -- the continuation holds what the call held and what the step has taken
    have own : ∀ j u, j ≠ i → w.calls[j]? = some u → p.Apart (p.held t') (p.held u) := by
      intro j u ne hj l hl b hb
      rcases p.next_held hs.next l hl with old | new
      · exact excl i j t u ne.symm hs.here hj l old b hb
      · exact hs.free j u ne hj l new b hb
    intro j k u v ne hj hk
    rcases getElem?_set_cases hj with ⟨rfl, rfl⟩ | ⟨hji, old⟩
    · rcases getElem?_set_cases hk with ⟨rfl, _⟩ | ⟨hki, ho⟩
      · exact absurd rfl ne
      · exact own k v hki ho
    · rcases getElem?_set_cases hk with ⟨_, rfl⟩ | ⟨_, ho⟩
      · exact (own j u hji old).symm
      · exact excl j k u v ne old ho

/-- Assertions about the memory, with the number of calls so far, and about each call. -/
structure Assertions (σ τ : Type) where
  memory : σ → Nat → Prop
  call : σ → Nat → τ → Prop

def Assertions.Holds (A : Assertions σ τ) (w : World σ τ) : Prop :=
  A.memory w.shared w.calls.length ∧ ∀ (i : Nat) t, w.calls[i]? = some t → A.call w.shared i t

/-- The assertions are kept by the calls themselves and are not disturbed by the others, as far as
the locks keep them apart. -/
structure Outline (p : Program σ τ α ε L) (ok : World σ τ → Event τ ε → Prop) (A : Assertions σ τ) : Prop where
  entry : ∀ {w : World σ τ} {t : τ}, A.Holds w → ok w (.call t) → p.entry w.shared t = true →
    A.memory w.shared (w.calls.length + 1) ∧ A.call w.shared w.calls.length t
  environment : ∀ {w : World σ τ} {d : ε}, A.Holds w → ok w (.environment d) →
    A.memory (p.environment d w.shared) w.calls.length ∧
      ∀ (i : Nat) t, w.calls[i]? = some t → A.call (p.environment d w.shared) i t
  own : ∀ {w : World σ τ} {i : Nat} {t : τ} {a : α} {t' : τ}, A.Holds w → ok w (.step i) → p.Steps w i t a t' →
    A.memory (p.perform i a w.shared) w.calls.length ∧ A.call (p.perform i a w.shared) i t'
  stable : ∀ {w : World σ τ} {i j : Nat} {t u : τ} {a : α} {t' : τ}, A.Holds w → ok w (.step i) →
    p.Steps w i t a t' → w.calls[j]? = some u → j ≠ i → p.Apart (p.held t ++ p.takes t) (p.held u) →
      A.call (p.perform i a w.shared) j u

section Outline

variable {ok : World σ τ → Event τ ε → Prop} {A : Assertions σ τ}

section

variable (o : Outline p ok A)

include o

theorem Outline.fire {w w' : World σ τ} {e : Event τ ε} (excl : p.Exclusive w)
    (hh : A.Holds w) (hme : ok w e) (h : p.fire w e = some w') : A.Holds w' := by
  rcases fire_cases h with ⟨t, rfl, he, rfl⟩ | ⟨d, rfl, rfl⟩ | ⟨i, t, a, t', rfl, hs, rfl⟩
  · obtain ⟨hm, hc⟩ := o.entry hh hme he
    refine ⟨by simpa using hm, fun j u hj => ?_⟩
    rcases getElem?_append_cases hj with ⟨rfl, rfl⟩ | ⟨_, hj⟩
    · exact hc
    · exact hh.2 j u hj
  · exact o.environment hh hme
  · obtain ⟨hm, hc⟩ := o.own hh hme hs
    refine ⟨by simpa using hm, fun j u hj => ?_⟩
    rcases getElem?_set_cases hj with ⟨rfl, rfl⟩ | ⟨ne, hj⟩
    · exact hc
    · refine o.stable hh hme hs hj ne ?_
      intro l hl b hb
      rcases mem_append.mp hl with old | new
      · exact excl i j t u ne.symm hs.here hj l old b hb
      · exact hs.free j u ne hj l new b hb

theorem Outline.keep (w : World σ τ) (e : Event τ ε) (w' : World σ τ)
    (inv : p.Exclusive w ∧ A.Holds w) (hm : ok w e) (h : p.fire w e = some w') : p.Exclusive w' ∧ A.Holds w' :=
  ⟨exclusive_fire inv.1 h, o.fire inv.1 inv.2 hm h⟩

theorem Outline.run {w w' : World σ τ} {events : List (Event τ ε)}
    (hs : p.Exclusive w ∧ A.Holds w) (ha : p.Along ok w events) (h : p.run w events = some w') : p.Exclusive w' ∧ A.Holds w' :=
  run_invariant o.keep hs ha h

theorem Outline.along {w : World σ τ} {events : List (Event τ ε)} (hs : p.Exclusive w ∧ A.Holds w) (ha : p.Along ok w events) :
    p.Along (fun w e => (p.Exclusive w ∧ A.Holds w) ∧ ok w e) w events :=
  along_invariant o.keep hs ha

end

end Outline

def AloneStep (p : Program σ τ α ε L) (i : Nat) (x y : σ × τ) : Prop :=
  ∃ a, p.next x.1 x.2 = some (a, y.2) ∧ y.1 = p.perform i a x.1

def Alone (p : Program σ τ α ε L) (i : Nat) : σ × τ → σ × τ → Prop := Relation.ReflTransGen (p.AloneStep i)

theorem Alone.terminates {μ : Type} [Preorder μ] [WellFoundedLT μ] {i : Nat} {inv : σ × τ → Prop}
    (rank : σ × τ → μ) (step : ∀ {x y : σ × τ}, inv x → p.AloneStep i x y → inv y ∧ rank y < rank x)
    {x : σ × τ} (hs : inv x) : ∃ y, p.Alone i x y ∧ inv y ∧ p.next y.1 y.2 = none := by
  generalize hr_eq : rank x = r
  induction r using WellFoundedLT.induction generalizing x with
  | _ _ ih =>
    cases hn : p.next x.1 x.2 with
    | none => exact ⟨x, Relation.ReflTransGen.refl, hs, hn⟩
    | some taken =>
      obtain ⟨a, t'⟩ := taken
      have hf : p.AloneStep i x (p.perform i a x.1, t') := ⟨a, hn, rfl⟩
      obtain ⟨hk, hc⟩ := step hs hf
      obtain ⟨y, rest, inv, hr⟩ := ih _ (hr_eq ▸ hc) hk rfl
      exact ⟨y, Relation.ReflTransGen.head hf rest, inv, hr⟩

theorem Alone.run {i : Nat} {x y : σ × τ} (ha : p.Alone i x y) {calls : List τ} (hh : calls[i]? = some x.2)
    (ho : ∀ (j : Nat) u, j ≠ i → calls[j]? = some u → p.held u = []) :
    ∃ n, p.run ⟨x.1, calls⟩ (List.replicate n (.step i)) = some ⟨y.1, calls.set i y.2⟩ := by
  induction ha using Relation.ReflTransGen.head_induction_on generalizing calls with
  | refl =>
    refine ⟨0, ?_⟩
    obtain ⟨_, same⟩ := List.getElem?_eq_some_iff.mp hh
    rw [← same, set_getElem_self]
    rfl
  | @head before mid step _ ih =>
    obtain ⟨a, hn, hs⟩ := step
    have lt := (List.getElem?_eq_some_iff.mp hh).1
    have hst : p.Steps ⟨before.1, calls⟩ i before.2 a mid.2 := by
      refine ⟨hh, hn, fun j u ne hj => ?_⟩
      rw [ho j u ne hj]
      intro a _ b hb
      cases hb
    have hr : ∀ (j : Nat) u, j ≠ i → (calls.set i mid.2)[j]? = some u → p.held u = [] := by
      intro j u ne hj
      rcases getElem?_set_cases hj with ⟨eq, _⟩ | ⟨_, hj⟩
      · exact absurd eq ne
      · exact ho j u ne hj
    obtain ⟨n, run⟩ := ih (by rw [getElem?_set_self lt]) hr
    refine ⟨n + 1, ?_⟩
    rw [replicate_succ, Program.run, fire_step hst]
    simpa [hs] using run

theorem exists_of_any {x : Option α} {P : α → Prop} [DecidablePred P] (hc : x.any (fun a => decide (P a)) = true) :
    ∃ a, x = some a ∧ P a := by
  obtain ⟨a, eq, hh⟩ := (any_eq_true _ _).mp hc
  exact ⟨a, eq, of_decide_eq_true hh⟩

theorem exists_of_any_any {x : Option σ} {next : σ → Option τ} {P : σ → τ → Prop} [∀ v w, Decidable (P v w)]
    (hc : x.any (fun v => (next v).any fun w => decide (P v w)) = true) : ∃ v w, x = some v ∧ next v = some w ∧ P v w := by
  obtain ⟨v, hr, hc⟩ := (any_eq_true _ _).mp hc
  obtain ⟨w, run, hh⟩ := exists_of_any hc
  exact ⟨v, w, hr, run, hh⟩

end Program

end AsterCore
