import AsterCore.AsterStore

namespace AsterCore.Aster

/-- What a file of the store holds; `broken` is a file that cannot be read or decoded. -/
inductive FileState
  | missing
  | broken (reason : String)
  | holds (store : Store)

inductive ReadError
  | notExist
  | unsupportedVersion
  | other
  deriving DecidableEq

def readStore : FileState → Except ReadError Store
  | .missing => .error .notExist
  | .broken _ => .error .other
  | .holds store => if store.version ≠ storeVersion then .error .unsupportedVersion else .ok store

def readValidatedStore (lib : Library) (file : FileState) : Except ReadError Store :=
  match readStore file with
  | .error e => .error e
  | .ok store =>
    match validateStore lib store with
    | .error _ => .error .other
    | .ok () => .ok store

/-- The file at the path of the store and the one at `path + ".bak"`. -/
structure StoreFiles where
  primary : FileState := .missing
  backup : FileState := .missing

/-- The choice of `loadStore` between what the two files give; the flag says that the backup is the newer one. -/
def chooseStore : Except ReadError Store → Except ReadError Store → Except Failure (Store × Bool)
  | .error .unsupportedVersion, _ => .error .unsupportedVersion
  | _, .error .unsupportedVersion => .error .unsupportedVersion
  | .ok primary, .ok backup => if primary.generation < backup.generation then .ok (backup, true) else .ok (primary, false)
  | .ok primary, .error _ => .ok (primary, false)
  | .error _, .ok backup => .ok (backup, true)
  | .error .notExist, .error .notExist => .ok ({}, false)
  | .error _, .error _ => .error (.other "load Aster state")

def loadStore (lib : Library) (files : StoreFiles) : Except Failure (Store × Bool) :=
  chooseStore (readValidatedStore lib files.primary) (readValidatedStore lib files.backup)

def maxStoreSize : Nat := 16777216

/-- Which of the two calls of `writeStoreFile` replace their file; a call that fails leaves it as it was. -/
structure WriteEnv where
  first : Bool := true
  second : Bool := true

/-- `saveStoreLocked` up to its first write: where it starts and what it writes. -/
def planSave (lib : Library) (files : StoreFiles) (store : Store) : Except Failure (Bool × Store) :=
  match loadStore lib files with
  | .error e => .error e
  | .ok (committed, recovered) =>
    if committed.generation ≠ store.generation then
      .error (.conflict ("Aster store generation changed from " ++ toString store.generation ++ " to " ++
        toString committed.generation))
    else if store.generation = maxUint64 then .error (.conflict "Aster store generation exhausted")
    else
      let candidate := { store with generation := store.generation + 1 }
      match validateStore lib candidate with
      | .error e => .error e
      | .ok () =>
        if maxStoreSize < lib.encodedLength candidate + 1 then
          .error (.other ("aster state exceeds " ++ toString maxStoreSize ++ " bytes"))
        else .ok (recovered, candidate)

def writeFirst (recovered : Bool) (candidate : Store) (files : StoreFiles) : StoreFiles :=
  if recovered then { files with primary := .holds candidate } else { files with backup := .holds candidate }

def writeSecond (recovered : Bool) (candidate : Store) (files : StoreFiles) : StoreFiles :=
  if recovered then { files with backup := .holds candidate } else { files with primary := .holds candidate }

/-- `saveStoreLocked`; on success the store carries its new generation. -/
def saveStoreLocked (lib : Library) (env : WriteEnv) (files : StoreFiles) (store : Store) :
    StoreFiles × Except Failure Store :=
  match planSave lib files store with
  | .error e => (files, .error e)
  | .ok (recovered, candidate) =>
    if !env.first then (files, .error (.other "write Aster state"))
    else
      let files := writeFirst recovered candidate files
      (if env.second then writeSecond recovered candidate files else files, .ok candidate)

/-- A save that is cut off between its two writes, with the store it was about to commit. -/
def crashedSave (lib : Library) (env : WriteEnv) (files : StoreFiles) (store : Store) : StoreFiles × Option Store :=
  match planSave lib files store with
  | .error _ => (files, none)
  | .ok (recovered, candidate) => if env.first then (writeFirst recovered candidate files, some candidate) else (files, none)

section Load

variable {lib : Library} {files : StoreFiles}

/-- A copy that cannot win over a store: it is older, or it cannot be read, for want of a file or a readable one. -/
def Outdated (store : Store) : Except ReadError Store → Prop
  | .ok other => other.generation < store.generation
  | .error e => e ≠ .unsupportedVersion

variable {store : Store} {recovered : Bool}

theorem chooseStore_primary {backup : Except ReadError Store} (ho : Outdated store backup) :
    chooseStore (.ok store) backup = .ok (store, false) := by
  cases backup with
  | ok other => exact if_neg (UInt64.lt_asymm (show other.generation < store.generation from ho))
  | error e =>
    cases e with
    | unsupportedVersion => exact absurd rfl ho
    | notExist | other => rfl

theorem chooseStore_backup {primary : Except ReadError Store} (ho : Outdated store primary) :
    chooseStore primary (.ok store) = .ok (store, true) := by
  cases primary with
  | ok other => exact if_pos ho
  | error e =>
    cases e with
    | unsupportedVersion => exact absurd rfl ho
    | notExist | other => rfl

theorem chooseStore_same (store : Store) : chooseStore (.ok store) (.ok store) = .ok (store, false) :=
  if_neg (UInt64.lt_irrefl store.generation)

theorem chooseStore_outdated {primary backup : Except ReadError Store} {committed next : Store}
    (h : chooseStore primary backup = .ok (committed, recovered)) (hl : committed.generation < next.generation) :
    (recovered = false → Outdated next primary) ∧ (recovered = true → Outdated next backup) := by
  cases primary with
  | ok first =>
    cases backup with
    | ok second =>
      change (if first.generation < second.generation then _ else _) = _ at h
      split at h <;> cases h
      · exact ⟨nofun, fun _ => hl⟩
      · exact ⟨fun _ => hl, nofun⟩
    | error e =>
      cases e <;> cases h
      all_goals exact ⟨fun _ => hl, nofun⟩
  | error e =>
    cases e with
    | unsupportedVersion => cases h
    | notExist =>
      cases backup with
      | ok =>
        cases h
        exact ⟨nofun, fun _ => hl⟩
      | error e' =>
        cases e' <;> cases h
        exact ⟨fun _ => (by simp [Outdated]), nofun⟩
    | other =>
      cases backup with
      | ok =>
        cases h
        exact ⟨nofun, fun _ => hl⟩
      | error e' => cases e' <;> cases h

theorem readValidatedStore_holds (hv : ValidStore lib store) : readValidatedStore lib (.holds store) = .ok store := by
  have hr : readStore (.holds store) = .ok store := if_neg (not_not.mpr hv.version)
  unfold readValidatedStore
  rw [hr]
  simp only
  rw [validateStore_eq_ok.mpr hv]

theorem planSave_eq_ok {candidate : Store} (h : planSave lib files store = .ok (recovered, candidate)) :
    ∃ committed, loadStore lib files = .ok (committed, recovered) ∧ committed.generation = store.generation ∧
      candidate = { store with generation := store.generation + 1 } ∧
        candidate.generation.toNat = committed.generation.toNat + 1 ∧ ValidStore lib candidate := by
  unfold planSave at h
  split at h
  · cases h
  next committed _ hl =>
    split at h
    · cases h
    next hs =>
      split at h
      · cases h
      next hr =>
        simp only at h
        split at h
        · cases h
        next hv =>
          split at h <;> cases h
          rw [not_ne_iff] at hs
          refine ⟨committed, hl, hs, rfl, ?_, validateStore_eq_ok.mp hv⟩
          have bound := store.generation.toNat_lt
          have notMax : store.generation.toNat ≠ 18446744073709551615 := by
            intro eq
            apply hr
            apply UInt64.toNat_inj.mp
            rw [eq]
            rfl
          have one : (1 : UInt64).toNat = 1 := rfl
          rw [hs, UInt64.toNat_add, one, Nat.mod_eq_of_lt (by omega)]

theorem loadStore_written {candidate : Store} (h : planSave lib files store = .ok (recovered, candidate)) :
    (∃ flag, loadStore lib (writeFirst recovered candidate files) = .ok (candidate, flag)) ∧
      ∃ flag, loadStore lib (writeSecond recovered candidate (writeFirst recovered candidate files)) = .ok (candidate, flag) := by
  obtain ⟨committed, hl, _, _, _, hv⟩ := planSave_eq_ok h
  have hla : committed.generation < candidate.generation := by
    rw [UInt64.lt_iff_toNat_lt]
    omega
  obtain ⟨hp, hb⟩ := chooseStore_outdated hl hla
  have hr := readValidatedStore_holds hv
  unfold loadStore
  cases recovered with
  | false =>
    simp only [writeFirst, writeSecond, Bool.false_eq_true, if_false, hr]
    exact ⟨⟨true, chooseStore_backup (hp rfl)⟩, ⟨false, chooseStore_same candidate⟩⟩
  | true =>
    simp only [writeFirst, writeSecond, if_true, hr]
    exact ⟨⟨false, chooseStore_primary (hb rfl)⟩, ⟨false, chooseStore_same candidate⟩⟩

theorem saveStoreLocked_error {env : WriteEnv} {e : Failure}
    (h : (saveStoreLocked lib env files store).2 = .error e) : (saveStoreLocked lib env files store).1 = files := by
  unfold saveStoreLocked at h ⊢
  split at h
  · rfl
  · split at h
    next hf => rw [if_pos hf]
    · cases h

theorem saveStoreLocked_ok {env : WriteEnv} {saved : Store} (h : (saveStoreLocked lib env files store).2 = .ok saved) :
    ∃ recovered flag, planSave lib files store = .ok (recovered, saved) ∧
      loadStore lib (saveStoreLocked lib env files store).1 = .ok (saved, flag) := by
  unfold saveStoreLocked at h ⊢
  split at h
  · cases h
  next recovered _ hp =>
    obtain ⟨⟨flag₁, hf⟩, ⟨flag₂, hs⟩⟩ := loadStore_written hp
    split at h <;> cases h
    next hw =>
      rw [if_neg hw]
      split
      · exact ⟨recovered, flag₂, hp, hs⟩
      · exact ⟨recovered, flag₁, hp, hf⟩

theorem saveStoreLocked_stale (env : WriteEnv) {committed : Store}
    (hl : loadStore lib files = .ok (committed, recovered)) (hs : committed.generation ≠ store.generation) :
    ∃ message, (saveStoreLocked lib env files store).2 = .error (.conflict message) := by
  unfold saveStoreLocked planSave
  rw [hl]
  simp only
  rw [if_pos hs]
  exact ⟨_, rfl⟩

theorem crashedSave_load (lib : Library) (files : StoreFiles) (env : WriteEnv) (store : Store) :
    (crashedSave lib env files store).2 = none ∧ (crashedSave lib env files store).1 = files ∨
      ∃ candidate flag, (crashedSave lib env files store).2 = some candidate ∧
        candidate = { store with generation := store.generation + 1 } ∧
          loadStore lib (crashedSave lib env files store).1 = .ok (candidate, flag) := by
  unfold crashedSave
  split
  · exact .inl ⟨rfl, rfl⟩
  next candidate hp =>
    obtain ⟨⟨flag, hf⟩, _⟩ := loadStore_written hp
    obtain ⟨_, _, _, hs, _, _⟩ := planSave_eq_ok hp
    split
    · exact .inr ⟨candidate, flag, rfl, hs, hf⟩
    · exact .inl ⟨rfl, rfl⟩

end Load

inductive StoreEvent
  | save (store : Store) (env : WriteEnv)
  | crash (store : Store) (env : WriteEnv)

/-- The files, and the store of the last save that returned success or that a crash cut off after its first write. -/
structure SaveRun where
  files : StoreFiles
  saved : Except Failure Store

namespace SaveRun

variable (lib : Library)

def start (files : StoreFiles) : SaveRun := ⟨files, (loadStore lib files).map Prod.fst⟩

def apply (r : SaveRun) : StoreEvent → SaveRun
  | .save store env =>
    { files := (saveStoreLocked lib env r.files store).1
      saved := match (saveStoreLocked lib env r.files store).2 with
        | .ok saved => .ok saved
        | .error _ => r.saved }
  | .crash store env =>
    { files := (crashedSave lib env r.files store).1
      saved := (crashedSave lib env r.files store).2.elim r.saved .ok }

def run (r : SaveRun) (events : List StoreEvent) : SaveRun := events.foldl (apply lib) r

def Loads (r : SaveRun) : Prop := (loadStore lib r.files).map Prod.fst = r.saved

variable {lib}

theorem apply_loads {r : SaveRun} (hlo : r.Loads lib) (event : StoreEvent) : (r.apply lib event).Loads lib := by
  unfold Loads at hlo ⊢
  cases event with
  | save store env =>
    simp only [apply]
    cases hr : (saveStoreLocked lib env r.files store).2 with
    | error =>
      rw [saveStoreLocked_error hr]
      exact hlo
    | ok =>
      obtain ⟨_, _, _, hl⟩ := saveStoreLocked_ok hr
      rw [hl]
      rfl
  | crash store env =>
    simp only [apply]
    rcases crashedSave_load lib r.files env store with ⟨hn, hs⟩ | ⟨candidate, flag, some, _, hl⟩
    · rw [hn, hs]
      exact hlo
    · rw [some, hl]
      rfl

theorem run_loads {r : SaveRun} (hl : r.Loads lib) (events : List StoreEvent) : (r.run lib events).Loads lib := by
  induction events generalizing r with
  | nil => exact hl
  | cons event _ ih => exact ih (apply_loads hl event)

end SaveRun

/-- After any number of saves and crashes a load returns the store of the last save that succeeded or that was cut off
after its first write; a save that fails changes nothing, a save that succeeds is one generation later, and a save from
another generation than the committed one is rejected. -/
theorem store_crash_safe (lib : Library) (files : StoreFiles) (events : List StoreEvent) (store : Store) (env : WriteEnv) :
    let r := (SaveRun.start lib files).run lib events
    let save := saveStoreLocked lib env r.files store
    let crash := crashedSave lib env r.files store
    (loadStore lib r.files).map Prod.fst = r.saved ∧
      ((loadStore lib crash.1).map Prod.fst = r.saved ∨
        ∃ candidate, crash.2 = some candidate ∧ candidate = { store with generation := store.generation + 1 } ∧
          (loadStore lib crash.1).map Prod.fst = .ok candidate) ∧
      (∀ e, save.2 = .error e → loadStore lib save.1 = loadStore lib r.files) ∧
      (∀ saved, save.2 = .ok saved → saved = { store with generation := store.generation + 1 } ∧
        (loadStore lib save.1).map Prod.fst = .ok saved ∧
          ∃ previous, r.saved = .ok previous ∧ saved.generation.toNat = previous.generation.toNat + 1) ∧
      ∀ committed, r.saved = .ok committed → committed.generation ≠ store.generation → ∃ message, save.2 = .error (.conflict message) := by
  intro r _ _
  have hl := SaveRun.run_loads (show (SaveRun.start lib files).Loads lib from rfl) events
  have saved : ∀ {committed recovered}, loadStore lib r.files = .ok (committed, recovered) → r.saved = .ok committed := by
    intro _ _ loaded
    rw [← show _ = r.saved from hl, loaded]
    rfl
  refine ⟨hl, ?_, ?_, ?_, ?_⟩
  · rcases crashedSave_load lib r.files env store with ⟨_, hs⟩ | ⟨candidate, flag, some, hc, loaded⟩
    · left
      rw [hs]
      exact hl
    · right
      refine ⟨candidate, some, hc, ?_⟩
      rw [loaded]
      rfl
  · intro e hf
    rw [saveStoreLocked_error hf]
  · intro _ hd
    obtain ⟨_, _, hp, loaded⟩ := saveStoreLocked_ok hd
    obtain ⟨committed, hb, _, hc, hn, _⟩ := planSave_eq_ok hp
    refine ⟨hc, ?_, committed, saved hb, hn⟩
    rw [loaded]
    rfl
  · intro committed last hst
    obtain ⟨⟨previous, recovered⟩, loaded⟩ : ∃ loaded, loadStore lib r.files = .ok loaded := by
      cases h : loadStore lib r.files with
      | ok loaded => exact ⟨loaded, rfl⟩
      | error =>
        rw [SaveRun.Loads, h, last] at hl
        cases hl
    have hs : previous = committed := by
      have := saved loaded
      rw [last] at this
      cases this
      rfl
    rw [← hs] at hst
    exact saveStoreLocked_stale env loaded hst

end AsterCore.Aster
