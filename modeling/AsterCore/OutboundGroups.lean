import Mathlib.Data.List.TakeWhile

namespace AsterCore.Outbound

open List

/-- What a fallback group reads from a proxy object while a call runs: its name and `AliveForTestUrl`. -/
structure Readings (P : Type) where
  name : P → String
  alive : P → Bool

section Fallback

variable {P : Type} (r : Readings P)

/-- The loop of `findAliveProxy`, with the pinned name that it leaves. -/
def findAliveLoop (selected : String) : List P → Option P × String
  | [] => (none, selected)
  | proxy :: proxies =>
    if selected = "" then
      if r.alive proxy then (some proxy, selected) else findAliveLoop selected proxies
    else if r.name proxy = selected then
      if r.alive proxy then (some proxy, selected) else findAliveLoop "" proxies
    else findAliveLoop selected proxies

def findAliveProxy (selected : String) (proxies : List P) (h : proxies ≠ []) : P × String :=
  let (found, selected) := findAliveLoop r selected proxies
  (found.getD (proxies.head h), selected)

def PinnedAlive (selected : String) (proxies : List P) : Prop :=
  ∃ q ∈ proxies, selected ≠ "" ∧ r.name q = selected ∧ r.alive q

/-- The pinned proxy if it is in the list and alive, and otherwise the first one that is alive. -/
def Picks (selected : String) (proxies : List P) (p : P) : Prop :=
  (PinnedAlive r selected proxies → p ∈ proxies ∧ r.name p = selected ∧ r.alive p) ∧
  (¬ PinnedAlive r selected proxies → proxies.find? r.alive = some p ∨ p ∈ proxies ∧ ∀ q ∈ proxies, r.alive q = false)

/-- When the pass finds what it should: nothing is pinned, or the pinned name is missing and the first proxy is alive or
none is, or the pinned proxy is alive, or it is dead and the alive proxies behind it are as good as the whole list. -/
def Unspoiled (selected : String) (proxies : List P) (h : proxies ≠ []) : Prop :=
  selected = "" ∨
  match proxies.dropWhile fun p => r.name p != selected with
  | [] => r.alive (proxies.head h) ∨ ∀ q ∈ proxies, r.alive q = false
  | pinned :: behind => r.alive pinned ∨
    (PinnedAlive r selected behind → (behind.find? r.alive).map r.name = some selected) ∧
    (¬ PinnedAlive r selected behind →
      behind.find? r.alive = proxies.find? r.alive ∨ r.alive (proxies.head h) ∧ behind.find? r.alive = none)

variable {r} {selected : String} {proxies : List P}

theorem findAliveLoop_unpinned : findAliveLoop r "" proxies = (proxies.find? r.alive, "") := by
  induction proxies with
  | nil => rfl
  | cons p _ ih =>
    rw [findAliveLoop, if_pos rfl, find?_cons, ih]
    cases r.alive p <;> rfl

theorem findAliveLoop_pinned (hs : selected ≠ "") : (findAliveLoop r selected proxies).1 =
    match proxies.dropWhile fun p => r.name p != selected with
    | [] => none
    | pinned :: behind => if r.alive pinned then some pinned else behind.find? r.alive := by
  induction proxies with
  | nil => rfl
  | cons p _ ih =>
    rw [findAliveLoop, if_neg hs]
    by_cases hn : r.name p = selected
    · rw [if_pos hn, dropWhile_cons_of_neg (by simpa using hn), findAliveLoop_unpinned]
      exact apply_ite Prod.fst ..
    · rw [if_neg hn, dropWhile_cons_of_pos (by simpa using hn), ih]

theorem find?_eq_head_iff (h : proxies ≠ []) :
    proxies.find? r.alive = some (proxies.head h) ↔ r.alive (proxies.head h) = true := by
  obtain ⟨p, l, rfl⟩ := exists_cons_of_ne_nil h
  exact ⟨find?_some, find?_cons_of_pos⟩

theorem pinned_split {pinned : P} {behind : List P} (hd : proxies.dropWhile (fun p => r.name p != selected) = pinned :: behind) :
    r.name pinned = selected ∧ ∃ before, proxies = before ++ pinned :: behind ∧ ∀ q ∈ before, r.name q ≠ selected := by
  refine ⟨?_, proxies.takeWhile fun p => r.name p != selected, ?_, ?_⟩
  · have := head?_dropWhile_not (fun p => r.name p != selected) proxies
    rw [hd] at this
    simpa using this
  · rw [← hd, takeWhile_append_dropWhile]
  · intro q hq
    simpa using all_eq_true.mp all_takeWhile q hq

/-- `findAliveProxy` picks what it should exactly if the list is unspoiled. -/
theorem find_alive_proxy_iff (r : Readings P) (selected : String) (proxies : List P) (h : proxies ≠ []) :
    Picks r selected proxies (findAliveProxy r selected proxies h).1 ↔ Unspoiled r selected proxies h := by
  have hh : proxies.head h ∈ proxies := head_mem h
  unfold Picks Unspoiled findAliveProxy
  by_cases hs : selected = ""
  · subst hs
    simp only [findAliveLoop_unpinned, PinnedAlive, ne_eq, not_true, false_and, and_false, exists_false, true_or, iff_true]
    cases hp : proxies.find? r.alive with
    | some p => simp
    | none => exact ⟨nofun, fun _ => .inr ⟨hh, by simpa using hp⟩⟩
  rw [or_iff_right hs]
  dsimp only
  rw [findAliveLoop_pinned hs]
  cases hd : proxies.dropWhile fun p => r.name p != selected with
  | nil =>
    have hn : ¬ PinnedAlive r selected proxies := by
      rintro ⟨q, hq, _, he, _⟩
      have : ∀ q ∈ proxies, r.name q ≠ selected := by simpa [dropWhile_eq_nil_iff] using hd
      exact this q hq he
    simp [hn, find?_eq_head_iff h]
  | cons pinned behind =>
    obtain ⟨hn, before, hl, hb⟩ := pinned_split hd
    have hi : pinned ∈ proxies := by simp [hl]
    cases ha : r.alive pinned with
    | true =>
      have hx : PinnedAlive r selected proxies := ⟨pinned, hi, hs, hn, ha⟩
      simp [hi, hn, ha, hx]
    | false =>
      have hx : PinnedAlive r selected proxies ↔ PinnedAlive r selected behind := by
        constructor
        · rintro ⟨q, hq, _, he, hal⟩
          rw [hl, mem_append, mem_cons] at hq
          rcases hq with hq | rfl | hq
          · exact absurd he (hb q hq)
          · rw [ha] at hal
            cases hal
          · exact ⟨q, hq, hs, he, hal⟩
        · rintro ⟨q, hq, hq'⟩
          exact ⟨q, by simp [hl, hq], hq'⟩
      simp only [hx, ha, Bool.false_eq_true, if_false, false_or]
      cases hf : behind.find? r.alive with
      | some a =>
        have hal : r.alive a = true := find?_some hf
        have hm : a ∈ proxies := by simp [hl, mem_of_find?_eq_some hf]
        have hne : ¬ ∀ q ∈ proxies, r.alive q = false := fun hall => by simp [hall a hm] at hal
        simp [hm, hal, hne, @eq_comm _ (some a)]
      | none =>
        have hno : ¬ PinnedAlive r selected behind := by
          rintro ⟨q, hq, _, _, hal⟩
          exact find?_eq_none.mp hf q hq hal
        have hz : none = proxies.find? r.alive ↔ ∀ q ∈ proxies, r.alive q = false := by simp [@eq_comm _ none]
        simp only [hno, not_false_eq_true, false_imp_iff, true_imp_iff, true_and, Option.getD_none, find?_eq_head_iff h, hh, and_true]
        rw [or_comm, hz]

theorem find_alive_proxy_pinned : let r : Readings (String × Bool) := ⟨Prod.fst, Prod.snd⟩
    Picks r "b" [("a", true), ("b", true)] (findAliveProxy r "b" [("a", true), ("b", true)] (by simp)).1 :=
  (find_alive_proxy_iff _ _ _ _).mpr (.inr (.inl rfl))

/-- The pinned name is gone, the first proxy is dead and the second is alive: the first is returned. -/
theorem find_alive_proxy_dead : let r : Readings (String × Bool) := ⟨Prod.fst, Prod.snd⟩
    ¬ Picks r "c" [("a", false), ("b", true)] (findAliveProxy r "c" [("a", false), ("b", true)] (by simp)).1 := by
  unfold Picks PinnedAlive
  decide

end Fallback

end AsterCore.Outbound
