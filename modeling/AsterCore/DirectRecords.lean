import Mathlib.Data.List.TakeWhile
import AsterCore.GoMap
import AsterCore.GoStrings

namespace AsterCore.KernelDirect

open List Option GoMap

/-- One host's decision for an address. `call` is no field of the source: it names the
classifier call that computed the decision. -/
structure Record where
  direct : Bool
  expires : Int
  call : Nat := 0
  deriving DecidableEq

/-- The hosts of one address: the first one inline, the others in a map that is nil
unless a second host is stored. -/
structure AddressRecords where
  hasPrimary : Bool := false
  host : String := ""
  record : Record := ⟨false, 0, 0⟩
  extra : Option (GoMap String Record) := none
  addr : Addr := .invalid

abbrev HostOrder := GoMap.RangeOrder String Record

namespace AddressRecords

def lookup (a : AddressRecords) (host : String) : Option Record :=
  if a.hasPrimary ∧ a.host = host then some a.record
  else a.extra.bind fun extra => AList.lookup host extra

def upsert (a : AddressRecords) (host : String) (r : Record) : AddressRecords × Option Record :=
  if a.hasPrimary ∧ a.host = host then ({ a with record := r }, some a.record)
  else match a.extra.bind fun extra => AList.lookup host extra with
    | some prev => ({ a with extra := a.extra.map (AList.insert host r) }, some prev)
    | none =>
      if !a.hasPrimary then ({ a with host := host, record := r, hasPrimary := true }, none)
      else ({ a with extra := some ((a.extra.getD ∅).insert host r) }, none)

/-- Only called for a host that is stored, so the map it writes to is there. -/
def setExisting (a : AddressRecords) (host : String) (r : Record) : AddressRecords :=
  if a.hasPrimary ∧ a.host = host then { a with record := r }
  else { a with extra := a.extra.map (AList.insert host r) }

def nilIfEmpty (extra : GoMap String Record) : Option (GoMap String Record) :=
  if extra.entries.length = 0 then none else some extra

def clearPrimary (a : AddressRecords) : AddressRecords :=
  { a with hasPrimary := false, host := "", record := ⟨false, 0, 0⟩ }

def promoteFromExtra (order : HostOrder) (a : AddressRecords) : AddressRecords :=
  if a.hasPrimary then a
  else match a.extra with
    | none => a
    | some extra =>
      match order.visit extra with
      | [] => { a with extra := nilIfEmpty extra }
      | e :: _ => { a with host := e.1, record := e.2, hasPrimary := true, extra := nilIfEmpty (extra.erase e.1) }

def remove (order : HostOrder) (a : AddressRecords) (host : String) : AddressRecords × Bool :=
  if a.hasPrimary ∧ a.host = host then (a.clearPrimary.promoteFromExtra order, true)
  else match a.extra with
    | none => (a, false)
    | some extra =>
      match extra.lookup host with
      | none => (a, false)
      | some _ => ({ a with extra := nilIfEmpty (extra.erase host) }, true)

def lenHosts (a : AddressRecords) : Nat :=
  (a.extra.elim 0 fun extra => extra.entries.length) + if a.hasPrimary then 1 else 0

def isEmpty (a : AddressRecords) : Bool :=
  !a.hasPrimary && (a.extra.elim 0 fun extra => extra.entries.length) == 0

def forEach (order : HostOrder) (a : AddressRecords) : List (Σ _ : String, Record) :=
  (if a.hasPrimary then [⟨a.host, a.record⟩] else []) ++ a.extra.elim [] order.visit

/-- `proxyOrDirect` stops at the first PROXY host, so `direct` may stay false beside it. -/
def proxyOrDirect (order : HostOrder) (a : AddressRecords) : Bool × Bool :=
  let visited := (a.forEach order).takeWhile fun e => e.2.direct
  (visited.length < (a.forEach order).length, !visited.isEmpty)

/-- The part shared by `removeExpiredLocked` and `dropDirectHostsLocked`: every host whose record
meets `p` goes, first from `extra`, then from the primary place. The number is
how often `recordsLen` is lowered by one. -/
def dropHosts (order : HostOrder) (p : Record → Bool) (a : AddressRecords) : AddressRecords × Nat :=
  let dropped := a.extra.elim 0 fun extra => extra.entries.countP fun e => p e.2
  let a := { a with extra := a.extra.bind fun extra => nilIfEmpty (extra.deleteWhere fun _ r => p r) }
  if a.hasPrimary && p a.record then (a.clearPrimary.promoteFromExtra order, dropped + 1) else (a, dropped)

structure Valid (a : AddressRecords) : Prop where
  beside : ∀ extra, a.extra = some extra → a.hasPrimary = true
  once : ∀ extra, a.extra = some extra → extra.lookup a.host = none
  filled : ∀ extra, a.extra = some extra → extra.entries.length ≠ 0

variable {a : AddressRecords}

theorem valid_of_extra_none (h : a.extra = none) : a.Valid := by
  refine ⟨?_, ?_, ?_⟩ <;> intro extra hs <;> rw [h] at hs <;> cases hs

theorem Valid.extra_none (hva : a.Valid) (hv : a.hasPrimary = false) : a.extra = none := by
  cases h : a.extra with
  | none => rfl
  | some extra =>
    have ho := hva.beside extra h
    rw [hv] at ho
    cases ho

theorem lookup_nilIfEmpty (extra : GoMap String Record) (host : String) :
    ((nilIfEmpty extra).bind fun extra => AList.lookup host extra) = extra.lookup host := by
  unfold nilIfEmpty
  split
  next h =>
    have he : extra = ∅ := AList.ext (length_eq_zero_iff.mp h)
    rw [he]
    rfl
  · rfl

theorem length_nilIfEmpty (extra : GoMap String Record) :
    ((nilIfEmpty extra).elim 0 fun extra => extra.entries.length) = extra.entries.length := by
  unfold nilIfEmpty
  split
  next h => exact h.symm
  · rfl

theorem nilIfEmpty_eq_some {extra kept : GoMap String Record} (h : nilIfEmpty extra = some kept) :
    kept = extra ∧ extra.entries.length ≠ 0 := by
  unfold nilIfEmpty at h
  split at h
  · cases h
  next some => exact ⟨(Option.some.inj h).symm, some⟩

theorem isEmpty_iff : a.isEmpty = true ↔ a.lenHosts = 0 := by
  unfold isEmpty lenHosts
  cases a.hasPrimary <;> simp

variable {host : String} {r : Record}

theorem lookup_eq_some (h : a.lookup host = some r) :
    (a.hasPrimary = true ∧ a.host = host ∧ a.record = r) ∨
      ∃ extra, a.extra = some extra ∧ extra.lookup host = some r := by
  unfold lookup at h
  split at h
  next hh => exact Or.inl ⟨hh.1, hh.2, some.inj h⟩
  · obtain ⟨extra, some, ht⟩ := bind_eq_some_iff.mp h
    exact Or.inr ⟨extra, some, ht⟩

theorem lenHosts_pos_of_lookup (h : a.lookup host = some r) : 0 < a.lenHosts := by
  unfold lenHosts
  rcases lookup_eq_some h with ⟨ho, _, _⟩ | ⟨extra, some, ht⟩
  · simp [ho]
  · have mem := mem_entries_iff.mpr ht
    have hp := length_pos_of_mem mem
    rw [some, elim_some]
    omega

section Upsert

variable {a : AddressRecords} (host : String) (r : Record)

@[simp] theorem upsert_addr : (a.upsert host r).1.addr = a.addr := by
  unfold upsert
  split
  · rfl
  · split
    · rfl
    · split <;> rfl

theorem upsert_prev : (a.upsert host r).2 = a.lookup host := by
  unfold upsert lookup
  split
  · rfl
  · split
    next h => exact h.symm
    next h =>
      rw [h]
      split <;> rfl

theorem lookup_upsert (hva : a.Valid) (other : String) :
    (a.upsert host r).1.lookup other = if other = host then some r else a.lookup other := by
  unfold upsert
  split
  next hh =>
    by_cases hs : other = host
    · simp [lookup, hh, hs]
    · simp [lookup, hh.2, hs, Ne.symm hs]
  next he =>
    split
    next h =>
      obtain ⟨_, some, _⟩ := bind_eq_some_iff.mp h
      simp only [lookup, some, map_some, bind_some, lookup_insert_eq]
      by_cases hs : other = host
      · rw [hs, if_neg he, if_pos rfl, if_pos rfl]
      · simp only [hs, if_false]
    next h =>
      split
      next hv =>
        have hv : a.hasPrimary = false := by simpa using hv
        have nil := hva.extra_none hv
        simp only [lookup, nil, hv, true_and, eq_comm (a := host)]
        split <;> simp
      next ho =>
        have ho : a.hasPrimary = true := by simpa using ho
        simp only [lookup, bind_some, lookup_insert_eq]
        by_cases hs : other = host
        · rw [hs, if_neg he, if_pos rfl, if_pos rfl]
        · simp only [hs]
          cases a.extra <;> rfl

theorem lenHosts_upsert : (a.upsert host r).1.lenHosts = a.lenHosts + if (a.lookup host).isSome then 0 else 1 := by
  unfold upsert
  split
  next hh => simp [lookup, hh, lenHosts]
  next he =>
    split
    next prev h =>
      obtain ⟨extra, some, ht⟩ := Option.bind_eq_some_iff.mp h
      have hi := length_insert_eq extra host r
      have hf : a.lookup host = Option.some prev := by rw [lookup, if_neg he, h]
      rw [ht] at hi
      rw [hf]
      simp only [lenHosts, some, map_some, elim_some, hi, isSome_some, if_true,
        Nat.add_zero]
    next h =>
      have ha : a.lookup host = none := by rw [lookup, if_neg he, h]
      rw [ha, isSome_none, if_neg Bool.false_ne_true]
      split
      next hv => simp_all [lenHosts]
      next ho =>
        have ho : a.hasPrimary = true := by simpa using ho
        cases extra : a.extra with
        | none => simp [lenHosts, extra, ho]
        | some m =>
          have hi := length_insert_eq m host r
          have ha : m.lookup host = none := by rwa [extra] at h
          simp only [ha, isSome_none, Bool.false_eq_true, if_false] at hi
          simp only [lenHosts, extra, ho, getD_some, elim_some, hi, if_true]

theorem valid_upsert (hva : a.Valid) : (a.upsert host r).1.Valid := by
  unfold upsert
  split
  next here => exact ⟨hva.beside, hva.once, hva.filled⟩
  next he =>
    split
    next h =>
      obtain ⟨extra, some, _⟩ := bind_eq_some_iff.mp h
      have ho := hva.beside extra some
      have ha : a.host ≠ host := fun hs => he ⟨ho, hs⟩
      refine ⟨fun _ _ => ho, ?_, ?_⟩
      · intro m hm
        have hm : AList.insert host r extra = m := by simpa [some] using hm
        rw [← hm]
        rw [lookup_insert_eq, if_neg ha]
        exact hva.once extra some
      · intro m hm
        have hm : AList.insert host r extra = m := by simpa [some] using hm
        rw [← hm]
        simp
    next h =>
      split
      next hv =>
        have hv : a.hasPrimary = false := by simpa using hv
        apply valid_of_extra_none
        exact hva.extra_none hv
      next ho =>
        have ho : a.hasPrimary = true := by simpa using ho
        have ha : a.host ≠ host := fun hs => he ⟨ho, hs⟩
        refine ⟨fun _ _ => ho, ?_, ?_⟩
        · intro m hm
          rw [← some.inj hm]
          rw [lookup_insert_eq, if_neg ha]
          cases extra : a.extra with
          | none => rfl
          | some m => exact hva.once m extra
        · intro m hm
          rw [← some.inj hm]
          simp

end Upsert

theorem setExisting_eq {prev : Record} (h : a.lookup host = some prev) : a.setExisting host r = (a.upsert host r).1 := by
  unfold setExisting upsert
  split
  · rfl
  next he =>
    rw [lookup, if_neg he] at h
    rw [h]

section Promote

variable (order : HostOrder) (a : AddressRecords)

theorem promoteFromExtra_spec (hva : a.hasPrimary = false) :
    (∀ host, (a.promoteFromExtra order).lookup host = a.extra.bind fun extra => AList.lookup host extra) ∧
      (a.promoteFromExtra order).lenHosts = (a.extra.elim 0 fun extra => extra.entries.length) ∧
      (a.promoteFromExtra order).Valid := by
  unfold promoteFromExtra
  simp only [hva, Bool.false_eq_true, if_false]
  split
  next nil => exact ⟨fun host => by simp [lookup, hva], by simp [lenHosts, hva], valid_of_extra_none nil⟩
  next extra hs =>
    rw [hs]
    split
    next hv =>
      have nil := nil_perm.mp (hv ▸ order.perm extra)
      have hem : nilIfEmpty extra = none := by simp [nilIfEmpty, nil]
      refine ⟨fun host => ?_, ?_, valid_of_extra_none hem⟩
      · simp only [lookup, Bool.false_eq_true, false_and, if_false, lookup_nilIfEmpty, bind_some]
      · simp only [lenHosts, Bool.false_eq_true, if_false, length_nilIfEmpty, elim_some, Nat.add_zero]
    next e _ hv =>
      have mem := (order.perm extra).subset (hv ▸ mem_cons_self)
      have ht := mem_entries_iff.mp mem
      refine ⟨fun host => ?_, ?_, ?_, ?_, ?_⟩
      · simp only [lookup, true_and, lookup_nilIfEmpty, Option.bind_some, lookup_erase_eq, eq_comm (a := host)]
        split
        next same => rw [← same, ht]
        · rfl
      · have he := length_erase_of_lookup ht
        simp only [lenHosts, length_nilIfEmpty]
        exact he
      · exact fun _ _ => rfl
      · intro _ h
        rw [(nilIfEmpty_eq_some h).1]
        exact AList.lookup_erase _ _
      · intro kept h
        rw [(nilIfEmpty_eq_some h).1]
        exact (nilIfEmpty_eq_some h).2

@[simp] theorem promoteFromExtra_addr : (a.promoteFromExtra order).addr = a.addr := by
  unfold promoteFromExtra
  split
  · rfl
  · split
    · rfl
    · split <;> rfl

end Promote

structure Trimmed (a b : AddressRecords) (keep : String → Record → Bool) (dropped : Nat) : Prop where
  lookup_eq : ∀ host, b.lookup host = (a.lookup host).filter (keep host)
  lenHosts_eq : b.lenHosts + dropped = a.lenHosts
  valid : b.Valid
  addr_eq : b.addr = a.addr

section Trim

variable (order : HostOrder) {a : AddressRecords}

theorem remove_present (hv : a.Valid) {host : String} {r : Record} (ht : a.lookup host = some r) :
    (a.remove order host).2 = true ∧ Trimmed a (a.remove order host).1 (fun other _ => other != host) 1 := by
  unfold remove
  split
  next hh =>
    obtain ⟨hl, hle, hv'⟩ := promoteFromExtra_spec order a.clearPrimary rfl
    refine ⟨rfl, ?_, ?_, hv', promoteFromExtra_addr _ _⟩
    · intro other
      rw [hl]
      show (a.extra.bind fun extra => AList.lookup other extra) = _
      unfold lookup
      by_cases hs : other = host
      · rw [hs, ← hh.2]
        cases extra : a.extra with
        | none => simp
        | some m => simp [hv.once m extra]
      · have ha : ¬(a.hasPrimary = true ∧ a.host = other) := fun h => hs (h.2.symm.trans hh.2)
        rw [if_neg ha]
        cases (a.extra.bind fun extra => AList.lookup other extra) <;> simp [Option.filter, hs]
    · show (a.clearPrimary.promoteFromExtra order).lenHosts + 1 = a.lenHosts
      rw [hle]
      simp [lenHosts, clearPrimary, hh.1]
  next he =>
    rcases lookup_eq_some ht with ⟨ho, hs, _⟩ | ⟨extra, some, hf⟩
    · exact absurd ⟨ho, hs⟩ he
    · simp only [some, hf]
      have ho := hv.beside extra some
      have erased := length_erase_of_lookup hf
      refine ⟨trivial, ?_, ?_, ⟨?_, ?_, ?_⟩, rfl⟩
      · intro other
        simp only [lookup, lookup_nilIfEmpty, some, Option.bind_some, lookup_erase_eq]
        by_cases hh : a.hasPrimary = true ∧ a.host = other
        · have hs : other ≠ host := fun h => he ⟨ho, hh.2.trans h⟩
          simp [Option.filter, hh, hs]
        · simp only [hh]
          by_cases hs : other = host
          · simp [hs]
          · cases AList.lookup other extra <;> simp [Option.filter]
      · simp only [lenHosts, length_nilIfEmpty, some, elim_some]
        omega
      · exact fun _ _ => ho
      · intro kept h
        rw [(nilIfEmpty_eq_some h).1]
        rw [lookup_erase_eq]
        split
        · rfl
        · exact hv.once extra some
      · intro kept h
        rw [(nilIfEmpty_eq_some h).1]
        exact (nilIfEmpty_eq_some h).2

theorem lookup_dropExtra (p : Record → Bool) (extra : Option (GoMap String Record)) (host : String) :
    ((extra.bind fun m => nilIfEmpty (m.deleteWhere fun _ r => p r)).bind fun m => AList.lookup host m) =
      (extra.bind fun m => AList.lookup host m).filter fun r => !p r := by
  cases extra with
  | none => rfl
  | some => rw [bind_some, lookup_nilIfEmpty, lookup_deleteWhere, bind_some]

theorem length_dropExtra (p : Record → Bool) (extra : Option (GoMap String Record)) :
    ((extra.bind fun m => nilIfEmpty (m.deleteWhere fun _ r => p r)).elim 0 fun m => m.entries.length) +
        (extra.elim 0 fun m => m.entries.countP fun e => p e.2) =
      extra.elim 0 fun m => m.entries.length := by
  cases extra with
  | none => rfl
  | some m =>
    rw [bind_some, length_nilIfEmpty]
    exact length_deleteWhere (fun _ r => p r) m

theorem dropHosts_spec (p : Record → Bool) (hv : a.Valid) :
    Trimmed a (a.dropHosts order p).1 (fun _ r => !p r) (a.dropHosts order p).2 := by
  have length := length_dropExtra p a.extra
  unfold dropHosts
  simp only []
  split
  next hm =>
    obtain ⟨ho, hg⟩ := Bool.and_eq_true_iff.mp hm
    obtain ⟨hl, ht, hv'⟩ := promoteFromExtra_spec order
      (clearPrimary { a with extra := a.extra.bind fun m => nilIfEmpty (m.deleteWhere fun _ r => p r) }) rfl
    refine ⟨?_, ?_, hv', promoteFromExtra_addr _ _⟩
    · intro host
      rw [hl]
      refine (lookup_dropExtra p a.extra host).trans ?_
      unfold lookup
      split
      next hh =>
        have ha : (a.extra.bind fun m => AList.lookup host m) = none := by
          cases extra : a.extra with
          | none => rfl
          | some m => rw [bind_some, ← hh.2, hv.once m extra]
        simp [ha, Option.filter, hg]
      · rfl
    · rw [ht]
      simp only [lenHosts, ho, if_true, clearPrimary]
      omega
  next hk =>
    refine ⟨?_, ?_, ⟨?_, ?_, ?_⟩, rfl⟩
    · intro _
      unfold lookup
      simp only [lookup_dropExtra]
      split
      next hh =>
        have hs : p a.record = false := by simpa [hh.1] using hk
        simp [Option.filter, hs]
      · rfl
    · simp only [lenHosts]
      omega
    · intro m h
      obtain ⟨extra, some, _⟩ := bind_eq_some_iff.mp h
      exact hv.beside extra some
    · intro m h
      obtain ⟨extra, some, left⟩ := bind_eq_some_iff.mp h
      rw [(nilIfEmpty_eq_some left).1, lookup_deleteWhere]
      rw [hv.once extra some]
      rfl
    · intro m h
      obtain ⟨_, _, left⟩ := bind_eq_some_iff.mp h
      rw [(nilIfEmpty_eq_some left).1]
      exact (nilIfEmpty_eq_some left).2

theorem mem_forEach (hv : a.Valid) {host : String} {r : Record} :
    (⟨host, r⟩ : Σ _ : String, Record) ∈ a.forEach order ↔ a.lookup host = some r := by
  have hm : (⟨host, r⟩ : Σ _ : String, Record) ∈ (a.extra.elim [] order.visit) ↔
      (a.extra.bind fun extra => AList.lookup host extra) = some r := by
    cases a.extra with
    | none => simp
    | some extra =>
      rw [elim_some, (order.perm extra).mem_iff]
      exact mem_entries_iff
  unfold forEach lookup
  rw [mem_append, hm]
  cases ho : a.hasPrimary with
  | false => simp
  | true =>
    by_cases hh : a.host = host
    · have ha : (a.extra.bind fun extra => AList.lookup host extra) = none := by
        cases extra : a.extra with
        | none => rfl
        | some m => rw [bind_some, ← hh, hv.once m extra]
      simp [ha, eq_comm]
    · have hap := Ne.symm hh
      simp [hh, hap]

theorem proxyOrDirect_fst (hv : a.Valid) :
    (a.proxyOrDirect order).1 = true ↔ ∃ host r, a.lookup host = some r ∧ r.direct = false := by
  simp only [proxyOrDirect, decide_eq_true_eq]
  constructor
  · intro hs
    by_contra hn
    have all : (a.forEach order).takeWhile (fun e => e.2.direct) = a.forEach order := by
      rw [takeWhile_eq_self_iff]
      intro e mem
      by_contra hp
      exact hn ⟨e.1, e.2, (mem_forEach order hv).mp mem, by simpa using hp⟩
    rw [all] at hs
    omega
  · rintro ⟨host, r, ht, hp⟩
    have mem := (mem_forEach order hv).mpr ht
    refine lt_of_le_of_ne (takeWhile_sublist _).length_le ?_
    intro same
    have all := (takeWhile_sublist (fun e : Σ _ : String, Record => e.2.direct)).eq_of_length same
    have hd := takeWhile_eq_self_iff.mp all ⟨host, r⟩ mem
    rw [hp] at hd
    cases hd

end Trim

end AddressRecords

end AsterCore.KernelDirect
