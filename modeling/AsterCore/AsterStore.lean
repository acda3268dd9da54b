import AsterCore.GoMap
import AsterCore.GoStrings

namespace AsterCore.Aster

open List

structure User where
  id : String
  inbound : String
  protocol : String
  name : String
  uuid : String := ""
  password : String := ""
  flow : String := ""
  enabled : Bool := true
  uploadBytes : Int64 := 0
  downloadBytes : Int64 := 0
  trafficGeneration : UInt64 := 1
  createdAt : Int64 := 1
  updatedAt : Int64 := 1
  deriving DecidableEq

structure ListenerState where
  id : String
  name : String
  protocol : String
  users : List User
  revision : Int64
  appliedRevision : Int64 := 0
  deriving DecidableEq

structure Store where
  version : Int := 1
  generation : UInt64 := 0
  listeners : GoMap String ListenerState := ∅
  subscriptions : GoMap String String := ∅
  deriving DecidableEq

/-- What the package uses of the standard library and of `common/utils`. Nothing is assumed about it. -/
structure Library extends Stdlib where
  /-- `utils.UUIDMap(text).String()`. -/
  uuidMap : String → String
  /-- The length of the JSON text of a store. -/
  encodedLength : Store → Nat
  /-- `url.Parse` reads an absolute HTTPS URL without user information, query or fragment. -/
  publicURL : String → Bool

def storeVersion : Int := 1
def maxUint64 : UInt64 := 18446744073709551615

/-- The errors that callers tell apart, with the text after the sentinel. -/
inductive Failure
  | disabled
  | notFound
  | conflict (message : String)
  | invalid (message : String)
  | unsupportedVersion
  | other (message : String)
  deriving DecidableEq

def base64Value (c : Char) : Option Nat :=
  if c.isUpper then some (c.toNat - 65)
  else if c.isLower then some (c.toNat - 71)
  else if c.isDigit then some (c.toNat + 4)
  else if c = '-' then some 62
  else if c = '_' then some 63
  else none

/-- `validSubscriptionToken`: 32 bytes take 43 digits, and the last one has two bits to spare, which must be
zero for the text to be what the encoder makes. -/
def validSubscriptionToken (token : String) : Bool :=
  token.toList.length == 43 && token.toList.all (fun c => (base64Value c).isSome) &&
    (token.toList.getLast?.bind base64Value).any (fun value => value % 4 == 0)

def userCredentialKey (lib : Library) (user : User) : Except Failure String :=
  if user.protocol = "vless" then
    if user.uuid = "" ∨ user.password ≠ "" then
      .error (.invalid ("VLESS user " ++ lib.quote user.id ++ " requires a UUID"))
    else if user.flow ≠ "" ∧ user.flow ≠ "xtls-rprx-vision" then
      .error (.invalid ("unsupported VLESS flow " ++ lib.quote user.flow))
    else .ok (lib.uuidMap user.uuid)
  else if user.protocol = "anytls" then
    if user.password = "" ∨ user.uuid ≠ "" ∨ user.flow ≠ "" then
      .error (.invalid ("AnyTLS user " ++ lib.quote user.id ++ " requires a password"))
    else .ok user.password
  else .error (.invalid ("unsupported managed protocol " ++ lib.quote user.protocol))

/-- The sets of `validateStore`. `names` and `credentials` start afresh with every listener. -/
structure Seen where
  userIDs : List String := []
  tokens : List String := []
  names : List String := []
  credentials : List String := []

def Store.token (subscriptions : GoMap String String) (user : User) : String :=
  (subscriptions.lookup user.id).getD ""

def badUser (inbound : String) (state : ListenerState) (user : User) : Prop :=
  user.id = "" ∨ user.inbound ≠ inbound ∨ user.protocol ≠ state.protocol ∨ trimSpace user.name = "" ∨
    trimSpace user.name ≠ user.name ∨ 256 < user.name.utf8ByteSize

instance (inbound : String) (state : ListenerState) (user : User) : Decidable (badUser inbound state user) :=
  inferInstanceAs (Decidable (_ ∨ _))

def badMetadata (user : User) : Prop :=
  user.trafficGeneration = 0 ∨ user.uploadBytes < 0 ∨ user.downloadBytes < 0 ∨ user.createdAt ≤ 0 ∨
    user.updatedAt < user.createdAt

instance (user : User) : Decidable (badMetadata user) := inferInstanceAs (Decidable (_ ∨ _))

/-- One round of the inner loop of `validateStore`. -/
def validateUser (lib : Library) (subscriptions : GoMap String String) (inbound : String) (state : ListenerState)
    (seen : Seen) (user : User) : Except Failure Seen :=
  if badUser inbound state user then .error (.invalid ("invalid user in listener " ++ lib.quote inbound))
  else if user.id ∈ seen.userIDs then .error (.invalid ("duplicate user ID " ++ lib.quote user.id))
  else if lib.toLower user.name ∈ seen.names then
    .error (.invalid ("duplicate user name " ++ lib.quote user.name ++ " in listener " ++ lib.quote inbound))
  else
    match userCredentialKey lib user with
    | .error e => .error e
    | .ok credential =>
      if credential ∈ seen.credentials then .error (.invalid ("duplicate credential in listener " ++ lib.quote inbound))
      else if badMetadata user then .error (.invalid ("invalid metadata for user " ++ lib.quote user.id))
      else if !validSubscriptionToken (Store.token subscriptions user) then
        .error (.invalid ("missing subscription token for user " ++ lib.quote user.id))
      else if Store.token subscriptions user ∈ seen.tokens then .error (.invalid "duplicate subscription token")
      else .ok
        { userIDs := seen.userIDs ++ [user.id]
          tokens := seen.tokens ++ [Store.token subscriptions user]
          names := seen.names ++ [lib.toLower user.name]
          credentials := seen.credentials ++ [credential] }

def validateUsers (lib : Library) (subscriptions : GoMap String String) (inbound : String) (state : ListenerState) :
    Seen → List User → Except Failure Seen
  | seen, [] => .ok seen
  | seen, user :: users =>
    match validateUser lib subscriptions inbound state seen user with
    | .error e => .error e
    | .ok seen => validateUsers lib subscriptions inbound state seen users

def badListener (inbound : String) (state : ListenerState) : Prop :=
  state.id = "" ∨ state.name ≠ inbound ∨ state.protocol = "" ∨ state.revision ≤ 0 ∨ state.appliedRevision < 0 ∨
    state.revision < state.appliedRevision

instance (inbound : String) (state : ListenerState) : Decidable (badListener inbound state) :=
  inferInstanceAs (Decidable (_ ∨ _))

def validateListener (lib : Library) (subscriptions : GoMap String String) (seen : Seen) (inbound : String)
    (state : ListenerState) : Except Failure Seen :=
  if badListener inbound state then .error (.invalid ("invalid listener state for " ++ lib.quote inbound))
  else validateUsers lib subscriptions inbound state { seen with names := [], credentials := [] } state.users

def validateListeners (lib : Library) (subscriptions : GoMap String String) :
    Seen → List (Σ _ : String, ListenerState) → Except Failure Seen
  | seen, [] => .ok seen
  | seen, e :: rest =>
    match validateListener lib subscriptions seen e.1 e.2 with
    | .error e => .error e
    | .ok seen => validateListeners lib subscriptions seen rest

def validateStore (lib : Library) (store : Store) : Except Failure Unit :=
  if store.version ≠ storeVersion then .error (.invalid ("unsupported store version " ++ toString store.version))
  else if store.generation = maxUint64 then .error (.invalid "store generation is exhausted")
  else
    match validateListeners lib store.subscriptions {} store.listeners.entries with
    | .error e => .error e
    | .ok seen =>
      match store.subscriptions.entries.find? (fun e => e.1 ∉ seen.userIDs) with
      | some e => .error (.invalid ("subscription token references unknown user " ++ lib.quote e.1))
      | none => .ok ()

def usersOf (entries : List (Σ _ : String, ListenerState)) : List User := entries.flatMap (fun e => e.2.users)

def Store.users (store : Store) : List User := usersOf store.listeners.entries

def credentialOf (lib : Library) (user : User) : String := (userCredentialKey lib user).toOption.getD ""

structure ValidUser (lib : Library) (subscriptions : GoMap String String) (inbound : String) (state : ListenerState)
    (user : User) : Prop where
  fields : ¬ badUser inbound state user
  credential : ∃ key, userCredentialKey lib user = .ok key
  metadata : ¬ badMetadata user
  token : validSubscriptionToken (Store.token subscriptions user) = true

structure ValidListener (lib : Library) (subscriptions : GoMap String String) (inbound : String) (state : ListenerState) :
    Prop where
  fields : ¬ badListener inbound state
  users : ∀ user ∈ state.users, ValidUser lib subscriptions inbound state user
  names : (state.users.map fun user => lib.toLower user.name).Nodup
  credentials : (state.users.map (credentialOf lib)).Nodup

structure ValidStore (lib : Library) (store : Store) : Prop where
  version : store.version = storeVersion
  generation : store.generation ≠ maxUint64
  listeners : ∀ e ∈ store.listeners.entries, ValidListener lib store.subscriptions e.1 e.2
  ids : (store.users.map User.id).Nodup
  tokens : (store.users.map (Store.token store.subscriptions)).Nodup
  owned : ∀ e ∈ store.subscriptions.entries, e.1 ∈ store.users.map User.id

section Validation

variable {lib : Library} {subscriptions : GoMap String String} {inbound : String} {state : ListenerState}

def Seen.Nodup (seen : Seen) : Prop :=
  seen.userIDs.Nodup ∧ seen.tokens.Nodup ∧ seen.names.Nodup ∧ seen.credentials.Nodup

def Seen.addUsers (lib : Library) (subscriptions : GoMap String String) (seen : Seen) (users : List User) : Seen where
  userIDs := seen.userIDs ++ users.map User.id
  tokens := seen.tokens ++ users.map (Store.token subscriptions)
  names := seen.names ++ users.map fun user => lib.toLower user.name
  credentials := seen.credentials ++ users.map (credentialOf lib)

theorem Seen.addUsers_cons (seen : Seen) (user : User) (users : List User) :
    seen.addUsers lib subscriptions (user :: users) =
      (seen.addUsers lib subscriptions [user]).addUsers lib subscriptions users := by
  simp [Seen.addUsers]

theorem nodup_concat {α : Type} {xs : List α} (hn : xs.Nodup) {x : α} : (xs ++ [x]).Nodup ↔ x ∉ xs := by
  rw [← List.concat_eq_append, List.nodup_concat]
  exact ⟨fun h => h.1, fun h => ⟨h, hn⟩⟩

variable {seen seen' : Seen}

theorem validateUser_eq_ok {user : User} (hn : seen.Nodup) :
    validateUser lib subscriptions inbound state seen user = .ok seen' ↔
      ValidUser lib subscriptions inbound state user ∧ (seen.addUsers lib subscriptions [user]).Nodup ∧
        seen' = seen.addUsers lib subscriptions [user] := by
  obtain ⟨ids, ht, hna, hc⟩ := hn
  have hf : (seen.addUsers lib subscriptions [user]).Nodup ↔ user.id ∉ seen.userIDs ∧
      Store.token subscriptions user ∉ seen.tokens ∧ lib.toLower user.name ∉ seen.names ∧
        credentialOf lib user ∉ seen.credentials := by
    simp only [Seen.Nodup, Seen.addUsers, map_cons, map_nil, nodup_concat ids, nodup_concat ht,
      nodup_concat hna, nodup_concat hc]
  rw [hf]
  unfold validateUser
  simp only [ite_error_eq_ok]
  cases key : userCredentialKey lib user with
  | error =>
    refine ⟨fun h => (nomatch h.2.2.2), fun h => ?_⟩
    obtain ⟨k, hth⟩ := h.1.credential
    rw [key] at hth
    cases hth
  | ok credential =>
    have hs : credentialOf lib user = credential := by
      rw [credentialOf, key]
      rfl
    simp only [ite_error_eq_ok, hs, Bool.not_eq_true', Bool.not_eq_false]
    constructor
    · rintro ⟨hg, hne, hnn, hnc, hm, hto, hnt, hd⟩
      cases hd
      exact ⟨⟨hg, ⟨credential, key⟩, hm, hto⟩, ⟨hne, hnt, hnn, hnc⟩, by simp [Seen.addUsers, hs]⟩
    · rintro ⟨⟨hg, _, hm, hto⟩, ⟨hne, hnt, hnn, hnc⟩, rfl⟩
      exact ⟨hg, hne, hnn, hnc, hm, hto, hnt, by simp [Seen.addUsers, hs]⟩

theorem Seen.nodup_sub {users : List User} (hn : (seen.addUsers lib subscriptions users).Nodup) : seen.Nodup :=
  ⟨(nodup_append.mp hn.1).1, (nodup_append.mp hn.2.1).1, (nodup_append.mp hn.2.2.1).1,
    (nodup_append.mp hn.2.2.2).1⟩

theorem validateUsers_eq_ok {users : List User} (hn : seen.Nodup) :
    validateUsers lib subscriptions inbound state seen users = .ok seen' ↔
      (∀ user ∈ users, ValidUser lib subscriptions inbound state user) ∧ (seen.addUsers lib subscriptions users).Nodup ∧
        seen' = seen.addUsers lib subscriptions users := by
  induction users generalizing seen with
  | nil =>
    have hs : seen.addUsers lib subscriptions [] = seen := by simp [Seen.addUsers]
    rw [hs]
    constructor
    · intro h
      cases h
      exact ⟨nofun, hn, rfl⟩
    · rintro ⟨_, _, rfl⟩
      rfl
  | cons user _ ih =>
    unfold validateUsers
    rw [Seen.addUsers_cons, forall_mem_cons]
    cases hf : validateUser lib subscriptions inbound state seen user with
    | error =>
      refine ⟨nofun, ?_⟩
      rintro ⟨⟨hv, _⟩, ha, _⟩
      rw [(validateUser_eq_ok hn).mpr ⟨hv, Seen.nodup_sub ha, rfl⟩] at hf
      cases hf
    | ok =>
      obtain ⟨hv, ha, rfl⟩ := (validateUser_eq_ok hn).mp hf
      simp only [ih ha]
      exact ⟨fun ⟨hr, all, hs⟩ => ⟨⟨hv, hr⟩, all, hs⟩, fun ⟨⟨_, hr⟩, all, hs⟩ => ⟨hr, all, hs⟩⟩

theorem validateListener_eq_ok (ids : seen.userIDs.Nodup) (ht : seen.tokens.Nodup) :
    validateListener lib subscriptions seen inbound state = .ok seen' ↔
      ValidListener lib subscriptions inbound state ∧ (seen.userIDs ++ state.users.map User.id).Nodup ∧
        (seen.tokens ++ state.users.map (Store.token subscriptions)).Nodup ∧
          seen' = ({ seen with names := [], credentials := [] } : Seen).addUsers lib subscriptions state.users := by
  unfold validateListener
  split
  next bad => exact ⟨nofun, fun h => absurd bad h.1.fields⟩
  next hg =>
    have hf : ({ seen with names := [], credentials := [] } : Seen).Nodup := ⟨ids, ht, nodup_nil, nodup_nil⟩
    rw [validateUsers_eq_ok hf]
    constructor
    · rintro ⟨hu, ⟨hne, hnt, hn, hc⟩, hs⟩
      exact ⟨⟨hg, hu, hn, hc⟩, hne, hnt, hs⟩
    · rintro ⟨⟨_, hu, hn, hc⟩, hne, hnt, hs⟩
      refine ⟨hu, ⟨hne, hnt, ?_, ?_⟩, hs⟩
      · simpa only [Seen.addUsers, nil_append] using hn
      · simpa only [Seen.addUsers, nil_append] using hc

theorem validateListeners_eq_ok {entries : List (Σ _ : String, ListenerState)} (ids : seen.userIDs.Nodup)
    (ht : seen.tokens.Nodup) :
    (∃ seen', validateListeners lib subscriptions seen entries = .ok seen') ↔
      (∀ e ∈ entries, ValidListener lib subscriptions e.1 e.2) ∧
        (seen.userIDs ++ (usersOf entries).map User.id).Nodup ∧
          (seen.tokens ++ (usersOf entries).map (Store.token subscriptions)).Nodup := by
  induction entries generalizing seen with
  | nil =>
    unfold validateListeners
    simp [usersOf, ids, ht]
  | cons e entries ih =>
    unfold validateListeners
    have flat : usersOf (e :: entries) = e.2.users ++ usersOf entries := rfl
    rw [flat, map_append, map_append, ← append_assoc, ← append_assoc, forall_mem_cons]
    cases hf : validateListener lib subscriptions seen e.1 e.2 with
    | error =>
      refine ⟨fun ⟨_, h⟩ => (by cases h), ?_⟩
      rintro ⟨⟨hv, _⟩, hne, hnt⟩
      rw [(validateListener_eq_ok ids ht).mpr ⟨hv, (nodup_append.mp hne).1, (nodup_append.mp hnt).1, rfl⟩]
        at hf
      cases hf
    | ok =>
      obtain ⟨hv, hne, hnt, rfl⟩ := (validateListener_eq_ok ids ht).mp hf
      rw [ih hne hnt]
      exact ⟨fun ⟨hr, all⟩ => ⟨⟨hv, hr⟩, all⟩, fun ⟨⟨_, hr⟩, all⟩ => ⟨hr, all⟩⟩

theorem validateListeners_ids {entries : List (Σ _ : String, ListenerState)} (ids : seen.userIDs.Nodup)
    (ht : seen.tokens.Nodup) (h : validateListeners lib subscriptions seen entries = .ok seen') :
    seen'.userIDs = seen.userIDs ++ (usersOf entries).map User.id := by
  induction entries generalizing seen with
  | nil =>
    cases h
    simp [usersOf]
  | cons e _ ih =>
    unfold validateListeners at h
    cases hf : validateListener lib subscriptions seen e.1 e.2 with
    | error =>
      rw [hf] at h
      cases h
    | ok =>
      rw [hf] at h
      obtain ⟨_, hne, hnt, rfl⟩ := (validateListener_eq_ok ids ht).mp hf
      rw [ih hne hnt h]
      simp [Seen.addUsers, usersOf]

theorem validateStore_eq_ok {store : Store} : validateStore lib store = .ok () ↔ ValidStore lib store := by
  unfold validateStore
  simp only [ite_error_eq_ok, not_not]
  have loop : (∃ seen', validateListeners lib store.subscriptions {} store.listeners.entries = .ok seen') ↔ _ :=
    validateListeners_eq_ok nodup_nil nodup_nil
  cases hl : validateListeners lib store.subscriptions {} store.listeners.entries with
  | error =>
    refine ⟨fun h => (nomatch h.2.2), fun h => ?_⟩
    obtain ⟨_, hth⟩ := loop.mpr ⟨h.listeners, h.ids, h.tokens⟩
    rw [hl] at hth
    cases hth
  | ok seen =>
    obtain ⟨hv, ids, ht⟩ := loop.mp ⟨seen, hl⟩
    have hk : seen.userIDs = store.users.map User.id := validateListeners_ids nodup_nil nodup_nil hl
    simp only [hk]
    have ho : store.subscriptions.entries.find? (fun e => e.1 ∉ store.users.map User.id) = none ↔
        ∀ e ∈ store.subscriptions.entries, e.1 ∈ store.users.map User.id := by
      simp
    cases hu : store.subscriptions.entries.find? (fun e => e.1 ∉ store.users.map User.id) with
    | some =>
      refine ⟨fun h => (nomatch h.2.2), fun h => ?_⟩
      rw [ho.mpr h.owned] at hu
      cases hu
    | none =>
      exact ⟨fun h => ⟨h.1, h.2.1, hv, ids, ht, ho.mp hu⟩, fun h => ⟨h.version, h.generation, rfl⟩⟩

end Validation

end AsterCore.Aster
