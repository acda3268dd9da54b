import AsterCore.GoNetip

namespace AsterCore.Dns

open List Addr Option

def typeA : Nat := 1

def typeTXT : Nat := 16

def typeAAAA : Nat := 28

def typeOPT : Nat := 41

def rcodeServerFailure : Nat := 2

structure RRHeader where
  name : String
  rrtype : Nat
  rrclass : Nat
  ttl : Nat
  deriving DecidableEq

/-- The data of a record: an address as it is given, what `cloneShareRdata` knows (names and numbers), or
any other type. -/
inductive RData
  | a (ip : List UInt8)
  | aaaa (ip : List UInt8)
  | shared (rdata : List UInt8)
  | other (rdata : List UInt8)
  deriving DecidableEq

structure RR where
  hdr : RRHeader
  data : RData
  deriving DecidableEq

abbrev Section := List (Option RR)

structure MsgHdr where
  id : Nat := 0
  response : Bool := false
  opcode : Nat := 0
  authoritative : Bool := false
  truncated : Bool := false
  recursionDesired : Bool := false
  recursionAvailable : Bool := false
  zero : Bool := false
  authenticatedData : Bool := false
  checkingDisabled : Bool := false
  rcode : Nat := 0
  deriving DecidableEq

structure Question where
  name : String
  qtype : Nat
  qclass : Nat
  deriving DecidableEq

structure Msg where
  hdr : MsgHdr
  compress : Bool
  question : List Question
  answer : Section
  ns : Section
  extra : Section
  deriving DecidableEq

def canShareRdata (rrs : Section) : Bool :=
  rrs.all fun
    | some ⟨_, .other _⟩ => false
    | _ => true

/-- `cloneMsg`, which is a copy; nothing stands for the panic of `Msg.Copy` at a nil record. -/
def cloneMsg (msg : Msg) : Option Msg :=
  if canShareRdata msg.answer && canShareRdata msg.ns && canShareRdata msg.extra then some msg
  else if (msg.answer ++ msg.ns ++ msg.extra).contains none then none
  else some msg

def isOPT (rr : Option RR) : Bool := rr.any fun rr => rr.hdr.rrtype = typeOPT

def extraWithoutOPT (extra : Section) : Section := extra.filter fun rr => !isOPT rr

def dropOPT (extra : Section) : Section := extra.filter fun rr => !isOPT rr

def consider (min : Option Nat) (rr : Option RR) : Option Nat :=
  match rr, min with
  | none, min => min
  | some rr, none => some rr.hdr.ttl
  | some rr, some min => if rr.hdr.ttl < min then some rr.hdr.ttl else some min

def minTTLAll (answer ns extra : Section) : Nat := ((answer ++ ns ++ extra).foldl consider none).getD 0

def msgToIP (msg : Msg) : List Addr :=
  msg.answer.filterMap fun
    | some ⟨_, .aaaa ip⟩ => (addrFromSlice ip).map Addr.unmap
    | some ⟨_, .a ip⟩ => (addrFromSlice ip).map Addr.unmap
    | _ => none

structure CacheEntry where
  msg : Option Msg := none
  ips : List Addr := []
  hdr : MsgHdr := {}
  compress : Bool := false

def cacheKey (q : Question) : Question := q

def compactIP (key : Question) : Option RR → Option Addr
  | some ⟨hdr, .a ip⟩ => if hdr.name ≠ key.name then none else (addrFromSlice ip).map Addr.unmap
  | some ⟨hdr, .aaaa ip⟩ => if hdr.name ≠ key.name then none else (addrFromSlice ip).map Addr.unmap
  | _ => none

def compactAnswer (key : Question) : Section → Option (List Addr)
  | [] => some []
  | rr :: rrs => (compactIP key rr).bind fun ip => (compactAnswer key rrs).map fun ips => ip :: ips

def compactIPs (key : Question) (msg : Msg) : Option CacheEntry :=
  if 0 < msg.ns.length ∨ 0 < msg.extra.length ∨ msg.answer.length = 0 then none
  else (compactAnswer key msg.answer).map fun ips => { ips, hdr := msg.hdr, compress := msg.compress }

def encodeCacheEntry (key : Question) (msg : Msg) : CacheEntry :=
  (compactIPs key msg).getD { msg := some msg }

def compactAnswerTTL : Nat := 2 ^ 30

def expandIP (key : Question) (ip : Addr) : RR :=
  let ip := ip.unmap
  if ip.is4 then ⟨⟨key.name, typeA, key.qclass, compactAnswerTTL⟩, .a ip.asSlice⟩
  else ⟨⟨key.name, typeAAAA, key.qclass, compactAnswerTTL⟩, .aaaa ip.asSlice⟩

def CacheEntry.expand (e : CacheEntry) (key : Question) : Msg :=
  { hdr := e.hdr, compress := e.compress, question := [key], answer := e.ips.map fun ip => some (expandIP key ip), ns := [], extra := [] }

/-- The cache as its hits show it: the entry and the expiry time of a key. -/
abbrev MsgCache := Question → Option (CacheEntry × Int)

def MsgCache.getForCaller (c : MsgCache) (key : Question) : Option (Option Msg × Int) :=
  (c key).map fun (entry, expire) =>
    match entry.msg with
    | some msg => (cloneMsg msg, expire)
    | none => (some (entry.expand key), expire)

def MsgCache.peekIPs (c : MsgCache) (key : Question) : Option (List Addr × Int) :=
  (c key).map fun (entry, expire) =>
    match entry.msg with
    | some msg => (msgToIP msg, expire)
    | none => (entry.ips, expire)

/-- What `putMsgToCache` stores, and for how many seconds; after a panic of `cloneMsg` it stores nothing. -/
def toStore (q : Question) (msg : Msg) : Option (Msg × Nat) :=
  if q.qtype = typeTXT ∧ "_acme-challenge.".toList.isPrefixOf q.name.toList then none
  else
    let tmp := { msg with extra := extraWithoutOPT msg.extra }
    let ttl := if tmp.hdr.rcode = rcodeServerFailure then 5 else minTTLAll tmp.answer tmp.ns tmp.extra
    if ttl = 0 then none
    else (cloneMsg tmp).map fun stored => ({ stored with extra := dropOPT stored.extra }, ttl)

/-- `putMsgToCache` at a time in nanoseconds. -/
def putMsgToCache (c : MsgCache) (q : Question) (msg : Msg) (now : Int) : MsgCache :=
  match toStore q msg with
  | none => c
  | some (stored, ttl) => fun key => if key = cacheKey q then some (encodeCacheEntry key stored, now + ttl * 1000000000) else c key

/-- The record without its TTL, and with its address for the bytes of it. -/
inductive RecordView
  | empty
  | a (name : String) (rrtype rrclass : Nat) (ip : Option Addr)
  | aaaa (name : String) (rrtype rrclass : Nat) (ip : Option Addr)
  | raw (name : String) (rrtype rrclass : Nat) (data : RData)
  deriving DecidableEq

def view : Option RR → RecordView
  | none => .empty
  | some ⟨hdr, .a ip⟩ => .a hdr.name hdr.rrtype hdr.rrclass ((addrFromSlice ip).map Addr.unmap)
  | some ⟨hdr, .aaaa ip⟩ => .aaaa hdr.name hdr.rrtype hdr.rrclass ((addrFromSlice ip).map Addr.unmap)
  | some ⟨hdr, data⟩ => .raw hdr.name hdr.rrtype hdr.rrclass data

/-- An answer that can be stored as its address: a record of the question's name with an address in it. -/
def Compactable (key : Question) : Option RR → Prop
  | some ⟨hdr, .a ip⟩ => hdr.name = key.name ∧ (addrFromSlice ip).isSome = true
  | some ⟨hdr, .aaaa ip⟩ => hdr.name = key.name ∧ (addrFromSlice ip).isSome = true
  | _ => False

/-- A record that its address stands for: of the class of the question, and of type A with an IPv4 address or
of type AAAA with another, where an IPv4 address mapped into IPv6 is an IPv4 address. -/
def Plain (key : Question) : Option RR → Prop
  | some ⟨hdr, .a ip⟩ => hdr.rrtype = typeA ∧ hdr.rrclass = key.qclass ∧ ∀ x, addrFromSlice ip = some x → x.unmap.is4 = true
  | some ⟨hdr, .aaaa ip⟩ => hdr.rrtype = typeAAAA ∧ hdr.rrclass = key.qclass ∧ ∀ x, addrFromSlice ip = some x → x.unmap.is4 = false
  | _ => True

theorem addrFromSlice_plain {slice : List UInt8} {x : Addr} (hp : addrFromSlice slice = some x) :
    x.unmap.isValid = true ∧ x.unmap.zone = "" ∧ x.unmap.unmap = x.unmap := by
  unfold addrFromSlice at hp
  split at hp
  · cases hp
    exact ⟨rfl, rfl, rfl⟩
  · split at hp <;> cases hp
    by_cases hm : BitVec.ofNat 128 (GoBinary.fromBigEndian slice) >>> 32 = 0xffff#128
    · simp [unmap, hm, isValid, zone]
    · simp [unmap, hm, isValid, zone]

variable {key : Question} {rr : Option RR} {ips : List Addr} {m : Msg}

theorem compactIP_some {ip : Addr} : compactIP key rr = some ip ↔
    ∃ hdr slice x,
    (rr = some ⟨hdr, .a slice⟩ ∨ rr = some ⟨hdr, .aaaa slice⟩) ∧ hdr.name = key.name ∧ addrFromSlice slice = some x ∧ ip = x.unmap := by
  constructor
  · intro hk
    unfold compactIP at hk
    split at hk
    next hdr slice =>
      split at hk
      · cases hk
      next hs =>
        obtain ⟨x, hp, rfl⟩ := map_eq_some_iff.mp hk
        exact ⟨hdr, slice, x, .inl rfl, not_not.mp hs, hp, rfl⟩
    next hdr slice =>
      split at hk
      · cases hk
      next hs =>
        obtain ⟨x, hp, rfl⟩ := map_eq_some_iff.mp hk
        exact ⟨hdr, slice, x, .inr rfl, not_not.mp hs, hp, rfl⟩
    · cases hk
  · rintro ⟨_, _, x, rfl | rfl, hs, hp, rfl⟩
    · simp [compactIP, hs, hp]
    · simp [compactIP, hs, hp]

theorem compactable_iff : Compactable key rr ↔ ∃ ip, compactIP key rr = some ip := by
  constructor
  · intro hf
    unfold Compactable at hf
    split at hf
    next hdr slice =>
      obtain ⟨x, hp⟩ := isSome_iff_exists.mp hf.2
      exact ⟨_, compactIP_some.mpr ⟨hdr, slice, x, .inl rfl, hf.1, hp, rfl⟩⟩
    next hdr slice =>
      obtain ⟨x, hp⟩ := isSome_iff_exists.mp hf.2
      exact ⟨_, compactIP_some.mpr ⟨hdr, slice, x, .inr rfl, hf.1, hp, rfl⟩⟩
    · exact hf.elim
  · rintro ⟨_, hk⟩
    obtain ⟨_, _, x, rfl | rfl, hs, hp, _⟩ := compactIP_some.mp hk
    · exact ⟨hs, by rw [hp]; rfl⟩
    · exact ⟨hs, by rw [hp]; rfl⟩

theorem view_expandIP {ip : Addr} (kept : compactIP key rr = some ip) :
    view rr = view (some (expandIP key ip)) ↔ Plain key rr := by
  obtain ⟨_, _, x, hk, hs, hp, rfl⟩ := compactIP_some.mp kept
  obtain ⟨hv, hz, hi⟩ := addrFromSlice_plain hp
  have hb : (addrFromSlice x.unmap.asSlice).map unmap = some x.unmap := by
    rw [addrFromSlice_asSlice hv hz, map_some, hi]
  unfold expandIP
  rw [hi]
  cases hf : x.unmap.is4 with
  | true =>
    rcases hk with rfl | rfl
    · simp [view, Plain, hb, hp, hs, hf]
    · simp [view, Plain, hp, hf]
  | false =>
    rcases hk with rfl | rfl
    · simp [view, Plain, hp, hf]
    · simp [view, Plain, hb, hp, hs, hf]

theorem compactAnswer_some {answer : Section} :
    compactAnswer key answer = some ips ↔ List.Forall₂ (fun rr ip => compactIP key rr = some ip) answer ips := by
  induction answer generalizing ips with
  | nil =>
    rw [compactAnswer, forall₂_nil_left_iff, some_inj, eq_comm]
  | cons _ _ ih =>
    rw [forall₂_cons_left_iff, compactAnswer, bind_eq_some_iff]
    constructor
    · rintro ⟨ip, hk, hr⟩
      obtain ⟨ips', ho, rfl⟩ := map_eq_some_iff.mp hr
      exact ⟨ip, ips', hk, ih.mp ho, rfl⟩
    · rintro ⟨ip, _, hk, hr, rfl⟩
      exact ⟨ip, hk, by rw [ih.mpr hr, map_some]⟩

def Compact (key : Question) (m : Msg) : Prop := m.ns = [] ∧ m.extra = [] ∧ m.answer ≠ [] ∧ ∀ rr ∈ m.answer, Compactable key rr

theorem encodeCacheEntry_compact (hc : Compact key m) :
    ∃ ips, encodeCacheEntry key m = { ips, hdr := m.hdr, compress := m.compress } ∧
      List.Forall₂ (fun rr ip => compactIP key rr = some ip) m.answer ips := by
  obtain ⟨ns, he, some, all⟩ := hc
  obtain ⟨ips, hk⟩ : ∃ ips, compactAnswer key m.answer = .some ips := by
    generalize m.answer = answer at all
    induction answer with
    | nil => exact ⟨[], rfl⟩
    | cons rr _ ih =>
      obtain ⟨ip, hk⟩ := compactable_iff.mp (all rr mem_cons_self)
      obtain ⟨ips, hr⟩ := ih fun rr mem => all rr (mem_cons_of_mem _ mem)
      exact ⟨ip :: ips, by simp [compactAnswer, hk, hr]⟩
  refine ⟨ips, ?_, compactAnswer_some.mp hk⟩
  simp [encodeCacheEntry, compactIPs, ns, he, some, hk]

theorem encodeCacheEntry_full (hf : ¬ Compact key m) : encodeCacheEntry key m = { msg := some m } := by
  have none : compactIPs key m = none := by
    unfold compactIPs
    split
    · rfl
    next hs =>
      simp only [not_or, Nat.not_lt, Nat.le_zero, length_eq_zero_iff] at hs
      cases hk : compactAnswer key m.answer with
      | none => rfl
      | some =>
        refine absurd ⟨hs.1, hs.2.1, hs.2.2, fun rr mem => ?_⟩ hf
        obtain ⟨i, hi, rfl⟩ := getElem_of_mem mem
        have he := compactAnswer_some.mp hk
        have hh := List.Forall₂.get he hi (he.length_eq ▸ hi)
        exact compactable_iff.mpr ⟨_, hh⟩
  rw [encodeCacheEntry, none]
  rfl

theorem cloneMsg_eq {msg clone : Msg} (hc : cloneMsg msg = some clone) : clone = msg := by
  unfold cloneMsg at hc
  split at hc
  · exact (some.inj hc).symm
  · split at hc
    · cases hc
    · exact (some.inj hc).symm

theorem toStore_clone {q : Question} {msg : Msg} {ttl : Nat} (hs : toStore q msg = some (m, ttl)) : cloneMsg m = some m := by
  unfold toStore at hs
  split at hs
  · cases hs
  · dsimp only at hs
    generalize (if msg.hdr.rcode = rcodeServerFailure then 5 else minTTLAll msg.answer msg.ns (extraWithoutOPT msg.extra)) = seconds at hs
    split at hs
    · cases hs
    · obtain ⟨_, hc, eq⟩ := map_eq_some_iff.mp hs
      cases eq
      cases cloneMsg_eq hc
      -- There is no OPT record left to drop.
      have ho : dropOPT (extraWithoutOPT msg.extra) = extraWithoutOPT msg.extra := by
        rw [dropOPT, extraWithoutOPT]
        simp
      rw [ho]
      exact hc

theorem msgToIP_compact (he : List.Forall₂ (fun rr ip => compactIP key rr = some ip) m.answer ips) : msgToIP m = ips := by
  unfold msgToIP
  generalize m.answer = answer at he
  induction he with
  | nil => rfl
  | cons hk _ ih =>
    obtain ⟨_, _, x, rfl | rfl, _, hp, rfl⟩ := compactIP_some.mp hk
    · simp [hp, ih]
    · simp [hp, ih]

theorem expand_view {answer : Section} (he : List.Forall₂ (fun rr ip => compactIP key rr = some ip) answer ips) :
    (ips.map fun ip => some (expandIP key ip)).map view = answer.map view ↔ ∀ rr ∈ answer, Plain key rr := by
  induction he with
  | nil => simp
  | cons hk _ ih =>
    rw [map_cons, map_cons, map_cons, cons.injEq, ih, forall_mem_cons, eq_comm, view_expandIP hk]

/-- A stored message is read back as its clone would be exactly when it is not compact or all its answers are
plain; and the addresses of an entry are those of the message. -/
theorem getForCaller_clone_iff (c : MsgCache) (q : Question) (msg : Msg) (now : Int) {m : Msg} {ttl : Nat}
    (stores : toStore q msg = some (m, ttl)) :
    ((∃ out clone, (putMsgToCache c q msg now).getForCaller (cacheKey q) = some (some out, now + ttl * 1000000000) ∧ cloneMsg m = some clone ∧
        out.hdr = clone.hdr ∧ out.answer.map view = clone.answer.map view ∧ out.ns = clone.ns ∧ out.extra = clone.extra) ↔
      (Compact (cacheKey q) m → ∀ rr ∈ m.answer, Plain (cacheKey q) rr)) ∧
    (putMsgToCache c q msg now).peekIPs (cacheKey q) = some (msgToIP m, now + ttl * 1000000000) := by
  have clone := toStore_clone stores
  have entry : putMsgToCache c q msg now (cacheKey q) = some (encodeCacheEntry (cacheKey q) m, now + ttl * 1000000000) := by
    rw [putMsgToCache, stores]
    simp
  unfold MsgCache.getForCaller MsgCache.peekIPs
  rw [entry]
  by_cases compact : Compact (cacheKey q) m
  · obtain ⟨_, eq, he⟩ := encodeCacheEntry_compact compact
    rw [eq, clone]
    refine ⟨?_, by simp [msgToIP_compact he]⟩
    rw [← expand_view he]
    constructor
    · rintro ⟨_, _, hf, hc, _, hs, _⟩ _
      cases hf
      cases hc
      exact hs
    · intro hs
      exact ⟨_, m, rfl, rfl, rfl, hs compact, compact.1.symm, compact.2.1.symm⟩
  · rw [encodeCacheEntry_full compact, clone]
    refine ⟨iff_of_true ⟨m, m, by simp [clone], rfl, rfl, rfl, rfl, rfl⟩ fun h => absurd h compact, rfl⟩

/-- An A record of the question's name. -/
def sampleQuestion : Question := ⟨"a.", typeA, 1⟩

def sampleAnswer : Msg := ⟨{}, false, [], [some ⟨⟨"a.", typeA, 1, 60⟩, .a [1, 2, 3, 4]⟩], [], []⟩

theorem getForCaller_clone_iff_sample :
    ∃ m out clone, toStore sampleQuestion sampleAnswer = some (m, 60) ∧ Compact sampleQuestion m ∧
      (putMsgToCache (fun _ => none) sampleQuestion sampleAnswer 0).getForCaller sampleQuestion = some (some out, 60000000000) ∧
        cloneMsg m = some clone ∧ out.answer.map view = clone.answer.map view := by
  have hs : toStore sampleQuestion sampleAnswer = some (sampleAnswer, 60) := by decide +kernel
  have hpl : ∀ rr ∈ sampleAnswer.answer, Plain sampleQuestion rr := by
    intro _ mem
    cases mem_singleton.mp mem
    refine ⟨rfl, rfl, fun x hp => ?_⟩
    cases hp
    rfl
  obtain ⟨out, clone, hf, hc, _, same, _⟩ := (getForCaller_clone_iff (fun _ => none) _ _ 0 hs).1.mpr fun _ => hpl
  refine ⟨_, out, clone, hs, ⟨rfl, rfl, by simp [sampleAnswer], fun rr mem => ?_⟩, hf, hc, same⟩
  cases mem_singleton.mp mem
  exact ⟨rfl, rfl⟩

def mappedQuestion : Question := ⟨"a.", typeAAAA, 1⟩

def mappedAnswer : Msg :=
  ⟨{}, false, [], [some ⟨⟨"a.", typeAAAA, 1, 60⟩, .aaaa [0, 0, 0, 0, 0, 0, 0, 0, 0, 0, 255, 255, 1, 2, 3, 4]⟩], [], []⟩

/-- An AAAA record with an IPv4 address mapped into IPv6 comes back as an A record. -/
theorem getForCaller_mapped :
    ∃ m out clone, toStore mappedQuestion mappedAnswer = some (m, 60) ∧
      (putMsgToCache (fun _ => none) mappedQuestion mappedAnswer 0).getForCaller mappedQuestion = some (some out, 60000000000) ∧
      cloneMsg m = some clone ∧
      out.answer = [some ⟨⟨"a.", typeA, 1, compactAnswerTTL⟩, .a [1, 2, 3, 4]⟩] ∧ clone.answer = mappedAnswer.answer := by
  refine ⟨_, _, _, by rfl, by rfl, by rfl, ?_, ?_⟩
  · decide +kernel
  · decide +kernel

end AsterCore.Dns
