import AsterCore.AsterStore
import Mathlib.Data.List.Dedup
import Mathlib.Data.List.Sort
import Mathlib.Logic.Function.Basic

namespace AsterCore.Aster

open List Function

structure ManagedUser where
  principalID : String := ""
  name : String := ""
  uuid : String := ""
  password : String := ""
  flow : String := ""
  deriving DecidableEq

/-- A listener with managed users: what its configuration gives it and whom it serves. `closed` records that `Close`
was called on it. -/
structure ManagedInbound where
  identity : Nat
  protocol : String
  configured : List ManagedUser := []
  current : List ManagedUser := []
  closed : Bool := false
  deriving DecidableEq

inductive Inbound
  | absent
  | plain
  | managed (listener : ManagedInbound)
  deriving DecidableEq

abbrev Inbounds := String → Inbound

/-- The errors of the manager: with a context, joined, and those of a listener that could not be rolled back. -/
inductive CallError
  | plain (failure : Failure)
  | wrapped (context : String) (inner : CallError)
  | joined (first second : CallError)
  | rollBack (listener : String) (inner : CallError)
  deriving DecidableEq

namespace CallError

def rollbackFailed : CallError → Bool
  | .plain _ => false
  | .wrapped _ inner => inner.rollbackFailed
  | .joined first second => first.rollbackFailed || second.rollbackFailed
  | .rollBack _ _ => true

def join : Option CallError → Option CallError → Option CallError
  | none, e => e
  | some e, none => some e
  | some e, some e' => some (.joined e e')

theorem join_eq_none {e e' : Option CallError} : join e e' = none ↔ e = none ∧ e' = none := by
  cases e <;> cases e' <;> simp [join]

end CallError

def missingListener (lib : Library) (name : String) : Inbound → CallError
  | .absent => .plain (.other ("inbound listener not found: " ++ lib.quote name))
  | _ => .plain (.other ("inbound listener does not support managed users: " ++ lib.quote name))

/-- The answer of `UpdateManagedUsers`. A listener that fails may be left with any users. -/
inductive Update
  | done
  | failed (message : String) (left : List ManagedUser)

/-- The answers of a listener that is failed closed: to the update with no users, and to `Close`. -/
structure Closing where
  clear : Update := .done
  close : Option String := none

structure ListenerEnv where
  apply : String → Update := fun _ => .done
  undo : String → Update := fun _ => .done
  undoClosing : String → Closing := fun _ => {}
  closing : String → Closing := fun _ => {}

def ManagedInbound.update (l : ManagedInbound) (users : List ManagedUser) : Update → ManagedInbound × Option CallError
  | .done => ({ l with current := users }, none)
  | .failed message left => ({ l with current := left }, some (.plain (.other message)))

def failClosedManagedInboundListener (answer : Closing) (name : String) (inbounds : Inbounds) : Inbounds × Option CallError :=
  match inbounds name with
  | .absent => (inbounds, none)
  | .plain => (inbounds, none)
  | .managed l =>
    match l.update [] answer.clear with
    | (l, none) => (Function.update inbounds name (.managed l), none)
    | (l, some e) =>
      match answer.close with
      | none => (Function.update inbounds name .absent, some e)
      | some message => (Function.update inbounds name (.managed { l with closed := true }), some (.joined e (.plain (.other message))))

structure ListenerChange where
  name : String
  identity : Nat
  before : List ManagedUser
  after : List ManagedUser

/-- The function that `applyChanges` and `rollbackChanges` pass to `WithManagedInboundListener`. -/
def setUsers (lib : Library) (answer : Update) (change : ListenerChange) (users : List ManagedUser) (inbounds : Inbounds) :
    Inbounds × Option CallError :=
  match inbounds change.name with
  | .managed l =>
    if l.identity ≠ change.identity then (inbounds, some (.plain (.other "listener instance changed")))
    else (Function.update inbounds change.name (.managed (l.update users answer).1), (l.update users answer).2)
  | missing => (inbounds, some (missingListener lib change.name missing))

section Changes

variable (lib : Library) (env : ListenerEnv)

def undoChange (change : ListenerChange) (inbounds : Inbounds) : Inbounds × Option CallError :=
  match setUsers lib (env.undo change.name) change change.before inbounds with
  | (inbounds, none) => (inbounds, none)
  | (inbounds, some e) =>
    let closed := failClosedManagedInboundListener (env.undoClosing change.name) change.name inbounds
    (closed.1, CallError.join (some (.rollBack change.name e)) closed.2)

/-- `rollbackChanges`: the last change is undone first. -/
def rollbackChanges : List ListenerChange → Inbounds → Inbounds × Option CallError
  | [], inbounds => (inbounds, none)
  | change :: rest, inbounds =>
    let later := rollbackChanges rest inbounds
    let undone := undoChange lib env change later.1
    (undone.1, CallError.join later.2 undone.2)

/-- What `applyChanges` returns: nil, an error after which all is undone, or one that is `errRollbackFailed`. -/
inductive Applied
  | done
  | undone (e : CallError)
  | stuck (e : CallError)

def applyFrom (applied : List ListenerChange) : List ListenerChange → Inbounds → Inbounds × Applied
  | [], inbounds => (inbounds, .done)
  | change :: rest, inbounds =>
    match setUsers lib (env.apply change.name) change change.after inbounds with
    | (inbounds, none) => applyFrom (applied ++ [change]) rest inbounds
    | (inbounds, some e) =>
      let failure := CallError.wrapped ("apply managed users to listener " ++ lib.quote change.name) e
      match rollbackChanges lib env (applied ++ [change]) inbounds with
      | (inbounds, none) => (inbounds, .undone failure)
      | (inbounds, some e') => (inbounds, .stuck (.joined failure (.wrapped "aster listener rollback failed" e')))

def applyChanges (changes : List ListenerChange) (inbounds : Inbounds) : Inbounds × Applied :=
  applyFrom lib env [] changes inbounds

/-- The loop of `failClosedStateLocked` over the listeners. -/
def failClosedListeners : List String → Inbounds → Inbounds × Option CallError
  | [], inbounds => (inbounds, none)
  | name :: names, inbounds =>
    let closed := failClosedManagedInboundListener (env.closing name) name inbounds
    let rest := failClosedListeners names closed.1
    (rest.1, CallError.join (closed.2.map (.wrapped ("fail closed listener " ++ lib.quote name))) rest.2)

end Changes

def sortedSetKeys (names : List String) : List String := names.dedup.insertionSort (· ≤ ·)

theorem mem_sortedSetKeys {names : List String} {name : String} : name ∈ sortedSetKeys names ↔ name ∈ names := by
  rw [sortedSetKeys, mem_insertionSort, mem_dedup]

theorem nodup_sortedSetKeys (names : List String) : (sortedSetKeys names).Nodup :=
  (perm_insertionSort _ _).nodup_iff.mpr names.nodup_dedup

def Inbound.shape : Inbound → Inbound
  | .managed l => .managed { l with current := [] }
  | other => other

def Inbound.FailedClosed : Inbound → Prop
  | .managed l => l.current = [] ∨ l.closed = true
  | _ => True

def ListenerChange.Starts (inbounds : Inbounds) (change : ListenerChange) : Prop :=
  ∃ l, inbounds change.name = .managed l ∧ l.current = change.before

section Facts

variable {lib : Library} {env : ListenerEnv} {inbounds : Inbounds}

theorem Inbound.restore {l l' : ManagedInbound} (hs : (Inbound.managed l').shape = (Inbound.managed l).shape) :
    ({ l' with current := l.current } : ManagedInbound) = l := by
  obtain ⟨_, _, _, _, _⟩ := l
  simp only [Inbound.shape, Inbound.managed.injEq, ManagedInbound.mk.injEq] at hs ⊢
  exact ⟨hs.1, hs.2.1, hs.2.2.1, trivial, hs.2.2.2.2⟩

theorem ManagedInbound.update_shape (l : ManagedInbound) (users : List ManagedUser) (answer : Update) :
    (Inbound.managed (l.update users answer).1).shape = (Inbound.managed l).shape := by
  cases answer <;> rfl

variable {answer : Update} {change : ListenerChange} {users : List ManagedUser} {e : CallError} {before : Inbounds}
  {applied : List ListenerChange}

theorem setUsers_other {name : String}
    (ne : name ≠ change.name) : (setUsers lib answer change users inbounds).1 name = inbounds name := by
  unfold setUsers
  split
  · split
    · rfl
    · exact update_of_ne ne _ _
  · rfl

theorem setUsers_shape (answer : Update) (change : ListenerChange) (users : List ManagedUser) (name : String) :
    ((setUsers lib answer change users inbounds).1 name).shape = (inbounds name).shape := by
  unfold setUsers
  split
  next l ht =>
    split
    · rfl
    · simp only
      by_cases hs : name = change.name
      · rw [hs, update_self, l.update_shape, ht]
      · rw [update_of_ne hs]
  · rfl

theorem setUsers_done (done : (setUsers lib answer change users inbounds).2 = none) :
    ∃ l, inbounds change.name = .managed l ∧
      (setUsers lib answer change users inbounds).1 change.name = .managed { l with current := users } := by
  unfold setUsers at done ⊢
  split at done
  next l ht =>
    split at done
    · cases done
    next hs =>
      rw [if_neg hs]
      cases answer with
      | done => exact ⟨l, ht, update_self _ _ _⟩
      | failed => cases done
  · cases done

theorem setUsers_error (failed : (setUsers lib answer change users inbounds).2 = some e) : e.rollbackFailed = false := by
  unfold setUsers at failed
  split at failed
  · split at failed
    · cases failed
      rfl
    · cases answer with
      | done => cases failed
      | failed =>
        cases failed
        rfl
  · cases failed
    cases inbounds change.name <;> rfl

theorem CallError.join_rollbackFailed {e e' : Option CallError} {joined : CallError} (h : CallError.join e e' = some joined) :
    joined.rollbackFailed = (e.any rollbackFailed || e'.any rollbackFailed) := by
  cases e <;> cases e' <;> cases h <;> simp [rollbackFailed]

theorem undoChange_error (hf : (undoChange lib env change inbounds).2 = some e) : e.rollbackFailed = true := by
  unfold undoChange at hf
  split at hf
  · cases hf
  · rw [CallError.join_rollbackFailed hf]
    rfl

variable {changes : List ListenerChange}

theorem rollbackChanges_error (hf : (rollbackChanges lib env changes inbounds).2 = some e) : e.rollbackFailed = true := by
  induction changes generalizing e with
  | nil => cases hf
  | cons change changes ih =>
    rw [CallError.join_rollbackFailed hf]
    cases hl : (rollbackChanges lib env changes inbounds).2 with
    | some => simp [ih hl]
    | none =>
      cases now : (undoChange lib env change (rollbackChanges lib env changes inbounds).1).2 with
      | some => simp [undoChange_error now]
      | none =>
        have none := CallError.join_eq_none.mpr ⟨hl, now⟩
        rw [show CallError.join _ _ = some e from hf] at none
        cases none

theorem undoChange_done (hd : (undoChange lib env change inbounds).2 = none) :
    (∃ l, inbounds change.name = .managed l ∧
      (undoChange lib env change inbounds).1 change.name = .managed { l with current := change.before }) ∧
      ∀ name, name ≠ change.name → (undoChange lib env change inbounds).1 name = inbounds name := by
  unfold undoChange at hd ⊢
  have ho : ∀ name, name ≠ change.name →
      (setUsers lib (env.undo change.name) change change.before inbounds).1 name = inbounds name := fun name => setUsers_other
  cases set : setUsers lib (env.undo change.name) change change.before inbounds with
  | mk _ e =>
    rw [set] at hd ho
    cases e with
    | none =>
      obtain ⟨l, ht, now⟩ := setUsers_done (show (setUsers lib (env.undo change.name) change change.before inbounds).2 = none by rw [set])
      rw [set] at now
      exact ⟨⟨l, ht, now⟩, ho⟩
    | some =>
      have none := (CallError.join_eq_none.mp hd).1
      cases none

theorem rollbackChanges_done (hn : (changes.map ListenerChange.name).Nodup)
    (hd : (rollbackChanges lib env changes inbounds).2 = none) :
    (∀ change ∈ changes, ∃ l, inbounds change.name = .managed l ∧
      (rollbackChanges lib env changes inbounds).1 change.name = .managed { l with current := change.before }) ∧
      ∀ name, name ∉ changes.map ListenerChange.name → (rollbackChanges lib env changes inbounds).1 name = inbounds name := by
  induction changes with
  | nil => exact ⟨nofun, fun _ _ => rfl⟩
  | cons change _ ih =>
    obtain ⟨hf, rest⟩ := nodup_cons.mp hn
    obtain ⟨hl, last⟩ := CallError.join_eq_none.mp hd
    obtain ⟨hr, ho⟩ := ih rest hl
    obtain ⟨⟨l, ht, now⟩, hfr⟩ := undoChange_done last
    constructor
    · intro c hc
      rcases mem_cons.mp hc with rfl | hc
      · rw [ho c.name hf] at ht
        exact ⟨l, ht, now⟩
      · obtain ⟨l, ht, now⟩ := hr c hc
        have ne : c.name ≠ change.name := by
          rintro hs
          exact hf (hs ▸ mem_map_of_mem hc)
        exact ⟨l, ht, (hfr c.name ne).trans now⟩
    · intro name ha
      rw [map_cons, mem_cons, not_or] at ha
      exact (hfr name ha.1).trans (ho name ha.2)

structure Touched (names : List String) (before after : Inbounds) : Prop where
  shape : ∀ name, (after name).shape = (before name).shape
  others : ∀ name, name ∉ names → after name = before name

theorem Touched.set {names : List String} (h : Touched names before inbounds) :
    Touched (names ++ [change.name]) before (setUsers lib answer change users inbounds).1 := by
  constructor
  · intro _
    rw [setUsers_shape, h.shape]
  · intro name ha
    rw [mem_append, mem_singleton, not_or] at ha
    rw [setUsers_other ha.2, h.others name ha.1]

theorem rollbackChanges_restores
    (nodup : (changes.map ListenerChange.name).Nodup) (touched : Touched (changes.map ListenerChange.name) before inbounds)
    (starts : ∀ change ∈ changes, change.Starts before) (done : (rollbackChanges lib env changes inbounds).2 = none) :
    (rollbackChanges lib env changes inbounds).1 = before := by
  obtain ⟨restored, others⟩ := rollbackChanges_done nodup done
  funext name
  by_cases mem : name ∈ changes.map ListenerChange.name
  · obtain ⟨change, hc, rfl⟩ := mem_map.mp mem
    obtain ⟨_, there, now⟩ := restored change hc
    obtain ⟨l, first, current⟩ := starts change hc
    have shape := touched.shape change.name
    rw [there, first] at shape
    rw [now, first, ← current, Inbound.restore shape]
  · exact (others name mem).trans (touched.others name mem)

def ChangesApplied (changes : List ListenerChange) (before after : Inbounds) : Prop :=
  (∀ change ∈ changes, ∃ l, before change.name = .managed l ∧ after change.name = .managed { l with current := change.after }) ∧
    ∀ name, name ∉ changes.map ListenerChange.name → after name = before name

theorem applyFrom_done (hn : (changes.map ListenerChange.name).Nodup)
    (hd : (applyFrom lib env applied changes inbounds).2 = .done) :
    ChangesApplied changes inbounds (applyFrom lib env applied changes inbounds).1 := by
  induction changes generalizing applied inbounds with
  | nil => exact ⟨nofun, fun _ _ => rfl⟩
  | cons change _ ih =>
    obtain ⟨hfr, hr⟩ := nodup_cons.mp hn
    unfold applyFrom at hd ⊢
    have ho : ∀ name, name ≠ change.name →
        (setUsers lib (env.apply change.name) change change.after inbounds).1 name = inbounds name := fun name => setUsers_other
    have hf : (setUsers lib (env.apply change.name) change change.after inbounds).2 = none → ∃ l, _ ∧ _ := setUsers_done
    cases set : setUsers lib (env.apply change.name) change change.after inbounds with
    | mk _ e =>
      rw [set] at hd ho hf
      cases e with
      | some =>
        simp only at hd
        split at hd <;> cases hd
      | none =>
        obtain ⟨l, ht, now⟩ := hf rfl
        obtain ⟨hl, hfe⟩ := ih hr hd
        constructor
        · intro c hc
          rcases mem_cons.mp hc with rfl | hc
          · exact ⟨l, ht, (hfe c.name hfr).trans now⟩
          · obtain ⟨l, ht, now⟩ := hl c hc
            have ne : c.name ≠ change.name := by
              rintro hs
              exact hfr (hs ▸ mem_map_of_mem hc)
            exact ⟨l, (ho c.name ne).symm.trans ht, now⟩
        · intro name ha
          rw [map_cons, mem_cons, not_or] at ha
          exact (hfe name ha.2).trans (ho name ha.1)

theorem applyFrom_undone (hn : ((applied ++ changes).map ListenerChange.name).Nodup)
    (ht : Touched (applied.map ListenerChange.name) before inbounds) (hs : ∀ change ∈ applied ++ changes, change.Starts before)
    (hu : (applyFrom lib env applied changes inbounds).2 = .undone e) :
    (applyFrom lib env applied changes inbounds).1 = before := by
  induction changes generalizing applied inbounds with
  | nil => cases hu
  | cons change _ ih =>
    rw [append_cons] at hn hs
    have hl : Touched ((applied ++ [change]).map ListenerChange.name) before
        (setUsers lib (env.apply change.name) change change.after inbounds).1 := by
      rw [map_append]
      exact ht.set
    unfold applyFrom at hu ⊢
    cases set : setUsers lib (env.apply change.name) change change.after inbounds with
    | mk mid failed =>
      rw [set] at hu hl
      cases failed with
      | none => exact ih hn hl hs hu
      | some =>
        have hr : (rollbackChanges lib env (applied ++ [change]) mid).2 = none →
            (rollbackChanges lib env (applied ++ [change]) mid).1 = before := by
          rw [map_append] at hn
          exact rollbackChanges_restores (nodup_append.mp hn).1 hl (fun c hc => hs c (mem_append_left _ hc))
        simp only at hu ⊢
        cases hb : rollbackChanges lib env (applied ++ [change]) mid with
        | mk _ e' =>
          rw [hb] at hu hr
          cases e' with
          | none => exact hr rfl
          | some => cases hu

theorem applyFrom_error :
    ((applyFrom lib env applied changes inbounds).2 = .undone e → e.rollbackFailed = false) ∧
      ((applyFrom lib env applied changes inbounds).2 = .stuck e → e.rollbackFailed = true) := by
  induction changes generalizing applied inbounds with
  | nil => exact ⟨nofun, nofun⟩
  | cons change _ ih =>
    unfold applyFrom
    have he : ∀ e, (setUsers lib (env.apply change.name) change change.after inbounds).2 = some e → e.rollbackFailed = false :=
      fun e => setUsers_error
    cases set : setUsers lib (env.apply change.name) change change.after inbounds with
    | mk mid failed =>
      rw [set] at he
      cases failed with
      | none => exact ih
      | some failure =>
        have hp := he failure rfl
        have hs : ∀ e, (rollbackChanges lib env (applied ++ [change]) mid).2 = some e → e.rollbackFailed = true :=
          fun e => rollbackChanges_error
        simp only
        cases hb : rollbackChanges lib env (applied ++ [change]) mid with
        | mk _ e' =>
          rw [hb] at hs
          cases e' with
          | none =>
            refine ⟨fun h => ?_, nofun⟩
            cases h
            exact hp
          | some e' =>
            refine ⟨nofun, fun h => ?_⟩
            cases h
            simp [CallError.rollbackFailed, hs e' rfl]

theorem applyChanges_error (lib : Library) (env : ListenerEnv) (changes : List ListenerChange) (inbounds : Inbounds)
    (e : CallError) :
    ((applyChanges lib env changes inbounds).2 = .undone e → e.rollbackFailed = false) ∧
      ((applyChanges lib env changes inbounds).2 = .stuck e → e.rollbackFailed = true) :=
  applyFrom_error

variable {changes : List ListenerChange}

theorem applyChanges_done (hn : (changes.map ListenerChange.name).Nodup)
    (hd : (applyChanges lib env changes inbounds).2 = .done) :
    ChangesApplied changes inbounds (applyChanges lib env changes inbounds).1 :=
  applyFrom_done hn hd

theorem applyChanges_undone (hn : (changes.map ListenerChange.name).Nodup)
    (hs : ∀ change ∈ changes, change.Starts inbounds) (hu : (applyChanges lib env changes inbounds).2 = .undone e) :
    (applyChanges lib env changes inbounds).1 = inbounds :=
  applyFrom_undone hn ⟨fun _ => rfl, fun _ _ => rfl⟩ hs hu

theorem applyChanges_cases (lib : Library) (env : ListenerEnv) (hn : (changes.map ListenerChange.name).Nodup)
    (hs : ∀ change ∈ changes, change.Starts inbounds) :
    (∃ after, applyChanges lib env changes inbounds = (after, .done) ∧ ChangesApplied changes inbounds after) ∨
      (∃ e, applyChanges lib env changes inbounds = (inbounds, .undone e) ∧ e.rollbackFailed = false) ∨
      ∃ after e, applyChanges lib env changes inbounds = (after, .stuck e) ∧ e.rollbackFailed = true := by
  have undone : ∀ e, (applyChanges lib env changes inbounds).2 = .undone e → (applyChanges lib env changes inbounds).1 = inbounds :=
    fun e => applyChanges_undone hn hs
  have done : (applyChanges lib env changes inbounds).2 = .done →
      ChangesApplied changes inbounds (applyChanges lib env changes inbounds).1 := applyChanges_done hn
  have he := applyChanges_error lib env changes inbounds
  generalize applyChanges lib env changes inbounds = result at undone done he
  obtain ⟨after, outcome⟩ := result
  cases outcome with
  | done => exact .inl ⟨after, rfl, done rfl⟩
  | undone e =>
    have same : after = inbounds := undone e rfl
    exact .inr (.inl ⟨e, by rw [same], (he e).1 rfl⟩)
  | stuck e => exact .inr (.inr ⟨after, e, rfl, (he e).2 rfl⟩)

theorem ChangesApplied.touched {after : Inbounds} (h : ChangesApplied changes before after) :
    Touched (changes.map ListenerChange.name) before after := by
  refine ⟨fun name => ?_, h.2⟩
  by_cases mem : name ∈ changes.map ListenerChange.name
  · obtain ⟨change, hc, rfl⟩ := mem_map.mp mem
    obtain ⟨l, ht, now⟩ := h.1 change hc
    rw [ht, now]
    rfl
  · rw [h.2 name mem]

theorem failClosed_closes (answer : Closing) (name : String) (inbounds : Inbounds) :
    ((failClosedManagedInboundListener answer name inbounds).1 name).FailedClosed := by
  unfold failClosedManagedInboundListener
  cases ht : inbounds name with
  | absent | plain => simp only [ht, Inbound.FailedClosed]
  | managed =>
    cases clear : answer.clear with
    | done =>
      simp only [ManagedInbound.update, update_self, Inbound.FailedClosed, true_or]
    | failed =>
      cases close : answer.close with
      | none => simp only [ManagedInbound.update, update_self, Inbound.FailedClosed]
      | some => simp only [ManagedInbound.update, update_self, Inbound.FailedClosed, or_true]

theorem failClosed_other {answer : Closing} {name other : String} (ne : other ≠ name) :
    (failClosedManagedInboundListener answer name inbounds).1 other = inbounds other := by
  unfold failClosedManagedInboundListener
  split
  · rfl
  · rfl
  · split
    · exact update_of_ne ne _ _
    · split
      · exact update_of_ne ne _ _
      · exact update_of_ne ne _ _

theorem failClosedListeners_closes (names : List String) (inbounds : Inbounds) :
    (∀ name ∈ names, ((failClosedListeners lib env names inbounds).1 name).FailedClosed) ∧
      ∀ name, (inbounds name).FailedClosed → ((failClosedListeners lib env names inbounds).1 name).FailedClosed := by
  induction names generalizing inbounds with
  | nil => exact ⟨nofun, fun _ h => h⟩
  | cons first _ ih =>
    obtain ⟨hr, hk⟩ := ih (failClosedManagedInboundListener (env.closing first) first inbounds).1
    have now := failClosed_closes (env.closing first) first inbounds
    constructor
    · intro name mem
      rcases mem_cons.mp mem with rfl | mem
      · exact hk name now
      · exact hr name mem
    · intro name hc
      by_cases hs : name = first
      · exact hk name (hs ▸ now)
      · exact hk name ((failClosed_other hs).symm ▸ hc)

end Facts

end AsterCore.Aster
