import Mathlib.Data.Finset.Dedup
import AsterCore.DirectRecords
import AsterCore.RecencyList

namespace AsterCore.KernelDirect

def minimumTTL : Int := 1000000000

def maximumTTL : Int := 3600 * 1000000000

/-- A real address of a DNS answer, with its time to live in nanoseconds. -/
structure DNSAnswer where
  addr : Addr
  ttl : Int
  deriving DecidableEq

/-- The two address sets given to the kernel. A prefix list of the source is the set
of addresses it covers. -/
structure DecisionSets where
  direct : Finset Addr
  proxy : Finset Addr
  deriving DecidableEq

inductive Mark
  | clamped
  | evicted (addr : Addr)
  deriving DecidableEq

/-- The state behind `mu`. A pointer to an `addressRecords` is a number below `fresh`;
`nodes` holds what it points to, except for the two list links, which are in `lru`
together with `lruCold` and `lruHot`. A zero `nextExpiry` is `none`. -/
structure Controller where
  maxEntries : Nat
  maxRecords : Nat
  records : GoMap Addr Nat := ∅
  nodes : Nat → AddressRecords := fun _ => {}
  fresh : Nat := 0
  recordsLen : Nat := 0
  lru : Links Nat := {}
  evictions : Nat := 0
  lastDirect : Finset Addr := ∅
  lastProxy : Finset Addr := ∅
  nextExpiry : Option Int := none
  generation : Nat := 0
  flushSeq : Nat := 0
  closed : Bool := false
  log : List Mark := []

def register (maxEntries : Nat) : Controller :=
  { maxEntries := maxEntries, maxRecords := maxEntries * 4 }

/-- The orders of the range loops for one answer: in `promoteFromExtra` when DIRECT hosts are
dropped, in `forEach`, and in `promoteFromExtra` when the oldest host is removed. -/
structure ItemOrders where
  direct : HostOrder
  oldest : HostOrder
  promote : HostOrder

structure Orders where
  address : Addr → HostOrder
  item : Nat → ItemOrders

def isUnsafeAddress (isFakeIP : Addr → Bool) (addr : Addr) : Bool :=
  let within (a b c d : Nat) (bits : Nat) : Bool :=
    Prefix.contains ⟨.v4 (BitVec.ofNat 32 (((a * 256 + b) * 256 + c) * 256 + d)), bits⟩ addr
  let within6 (top : Nat) (bits : Nat) : Bool :=
    match addr with
    | .v6 value _ => value >>> (128 - bits) == BitVec.ofNat 128 top >>> (16 - bits)
    | _ => false
  let unspecified := within 0 0 0 0 32 || match addr with | .v6 value zone => value == 0 && zone == "" | _ => false
  let broadcast := within 255 255 255 255 32
  let isLoopback := within 127 0 0 0 8 || match addr with | .v6 value _ => value == 1 | _ => false
  let isMulticast := within 224 0 0 0 4 || within6 0xff00 8
  let isLinkLocalUnicast := within 169 254 0 0 16 || within6 0xfe80 10
  let isPrivate := within 10 0 0 0 8 || within 172 16 0 0 12 || within 192 168 0 0 16 || within6 0xfc00 7
  let isGlobalUnicast := addr.isValid && !broadcast && !unspecified && !isLoopback && !isMulticast && !isLinkLocalUnicast
  !addr.isValid || isFakeIP addr || !isGlobalUnicast || isPrivate || isLoopback || isLinkLocalUnicast ||
    (within 0 0 0 0 8 || within 100 64 0 0 10 || within 198 18 0 0 15)

def clampTTL (ttl : Int) : Int :=
  if ttl < minimumTTL then minimumTTL else if ttl > maximumTTL then maximumTTL else ttl

structure Classified where
  addr : Addr
  expires : Int
  direct : Bool
  call : Nat := 0
  deriving DecidableEq

/-- The classification loop of `observe`, outside the lock. -/
def classify (isFakeIP : Addr → Bool) (classifier : Option (String → Addr → Bool)) (call : Nat) (host : String)
    (observedAt : Int) (answers : List DNSAnswer) : List Classified :=
  answers.filterMap fun answer =>
    let addr := answer.addr.unmap
    if isUnsafeAddress isFakeIP addr then none
    else some {
      addr := addr, expires := observedAt + clampTTL answer.ttl
      direct := classifier.elim false fun classifier => classifier host addr, call := call }

namespace Controller

def setNode (c : Controller) (ref : Nat) (a : AddressRecords) : Controller :=
  { c with nodes := Function.update c.nodes ref a }

def decRecordsLenLocked (n : Nat) (c : Controller) : Controller :=
  if n = 0 then c
  else if n ≤ c.recordsLen then { c with recordsLen := c.recordsLen - n }
  else { c with recordsLen := 0, log := c.log ++ [.clamped] }

def healRecordsLenLocked (c : Controller) : Controller :=
  if c.records.entries.length = 0 then { c with recordsLen := 0 } else c

def touchLocked (ref : Nat) (c : Controller) : Controller :=
  { c with lru := c.lru.touch ref }

def unlinkLRULocked (ref : Nat) (c : Controller) : Controller :=
  { c with lru := c.lru.unlink ref }

def forgetLocked (addr : Addr) (ref : Nat) (c : Controller) : Controller :=
  { c.unlinkLRULocked ref with records := c.records.erase addr }

/-- Takes the hosts that meet `p` from an address, lowering `recordsLen` once for each. -/
def dropHostsLocked (order : HostOrder) (p : Record → Bool) (ref : Nat) (c : Controller) : Controller :=
  let (a, dropped) := (c.nodes ref).dropHosts order p
  (decRecordsLenLocked 1)^[dropped] (c.setNode ref a)

def dropDirectHostsLocked (order : HostOrder) (ref : Nat) (c : Controller) : Controller :=
  c.dropHostsLocked order (fun r => r.direct) ref

/-- One call of the function `dropOldestHostLocked` gives to `forEach`. -/
def olderHost (found : Option (String × Int)) (e : Σ _ : String, Record) : Option (String × Int) :=
  match found with
  | none => some (e.1, e.2.expires)
  | some (host, expires) => if e.2.expires < expires then some (e.1, e.2.expires) else some (host, expires)

def oldestHost (visited : List (Σ _ : String, Record)) : Option (String × Int) := visited.foldl olderHost none

def dropOldestHostLocked (orders : ItemOrders) (ref : Nat) (incomingExpires : Int) (c : Controller) : Controller × Bool :=
  match oldestHost ((c.nodes ref).forEach orders.oldest) with
  | none => (c, false)
  | some (host, expires) =>
    if incomingExpires < expires then (c, false)
    else match (c.nodes ref).remove orders.promote host with
      | (a, true) => ((c.setNode ref a).decRecordsLenLocked 1, true)
      | (a, false) => (c.setNode ref a, false)

def evictOldestLocked (c : Controller) : Controller × Bool :=
  match c.lru.cold with
  | none => (c.healRecordsLenLocked, false)
  | some ref =>
    let a := c.nodes ref
    let c := c.decRecordsLenLocked a.lenHosts
    let c : Controller := { c with records := c.records.erase a.addr }
    let c := c.unlinkLRULocked ref
    ({ c with evictions := c.evictions + 1, log := c.log ++ [.evicted a.addr] }, true)

def earlier (next : Option Int) (expires : Int) : Option Int :=
  match next with
  | none => some expires
  | some t => if expires < t then some expires else some t

/-- Hosts are taken from an address, and the address itself when it has become empty. -/
def pruneLocked (order : HostOrder) (p : Record → Bool) (addr : Addr) (ref : Nat) (c : Controller) : Controller :=
  let c := c.dropHostsLocked order p ref
  if (c.nodes ref).isEmpty then c.forgetLocked addr ref else c

/-- The expiry times one round of `removeExpiredLocked` looks at: those kept in the map, then the
primary one after a promotion. -/
def nextAfter (order : HostOrder) (expired : Record → Bool) (a : AddressRecords) (next : Option Int) : Option Int :=
  let kept := a.extra.elim [] fun extra => extra.entries.filter fun e => !expired e.2
  let next := kept.foldl (fun next e => earlier next e.2.expires) next
  let a := (a.dropHosts order expired).1
  if a.hasPrimary then earlier next a.record.expires else next

/-- One round of the loop of `removeExpiredLocked`: the state, the next expiry so far and whether
something went. -/
def expireAddress (orders : Orders) (now : Int) (state : Controller × Option Int × Bool) (e : Σ _ : Addr, Nat) :
    Controller × Option Int × Bool :=
  let (c, next, changed) := state
  let order := orders.address e.1
  let expired : Record → Bool := fun r => !decide (now < r.expires)
  (c.pruneLocked order expired e.1 e.2,
    nextAfter order expired (c.nodes e.2) next,
    changed || ((c.nodes e.2).dropHosts order expired).2 != 0)

def removeExpiredLocked (orders : Orders) (now : Int) (c : Controller) : Controller × Bool :=
  if c.records.entries.length = 0 then ({ c with nextExpiry := none }, false)
  else if c.nextExpiry.any fun t => now < t then (c, false)
  else
    let (c, next, changed) := c.records.entries.foldl (expireAddress orders now) (c, none, false)
    ({ c with nextExpiry := next }, changed)

def buildSetsLocked (orders : Orders) (c : Controller) : DecisionSets :=
  let decision (e : Σ _ : Addr, Nat) := (c.nodes e.2).proxyOrDirect (orders.address e.1)
  { direct := ((c.records.entries.filter fun e => !(decision e).1 && (decision e).2).map Sigma.fst).toFinset
    proxy := ((c.records.entries.filter fun e => (decision e).1).map Sigma.fst).toFinset }

def changedSetsLocked (orders : Orders) (c : Controller) : Controller × DecisionSets × Nat × Bool :=
  let sets := c.buildSetsLocked orders
  if sets.direct = c.lastDirect ∧ sets.proxy = c.lastProxy then (c, ⟨∅, ∅⟩, c.generation, false)
  else
    let c : Controller := { c with lastDirect := sets.direct, lastProxy := sets.proxy, generation := c.generation + 1 }
    (c, sets, c.generation, true)

/-- Where an answer goes after the capacity branch of `observe`: nowhere, or to an address, which
may still have to be made. -/
inductive Room
  | skip
  | use (address : Option Nat)
  deriving DecidableEq

/-- The last part of the capacity branch, for an address that is not stored. -/
def evictForRecordLocked (dirty : Bool) (c : Controller) : Controller × Bool × Room :=
  if c.recordsLen < c.maxRecords then (c, dirty, .use none)
  else match c.evictOldestLocked with
    | (c, true) => (c, true, .use none)
    | (c, false) =>
      let c := c.healRecordsLenLocked
      (c, dirty, if c.recordsLen ≥ c.maxRecords then .skip else .use none)

/-- The capacity branch of `observe` for a stored address and a PROXY host. -/
def makeProxyRoomLocked (orders : ItemOrders) (ref : Nat) (item : Classified) (c : Controller) :
    Controller × Bool × Room :=
  let before := c.recordsLen
  let c := c.dropDirectHostsLocked orders.direct ref
  let dirty := c.recordsLen != before
  if (c.nodes ref).isEmpty then (c.forgetLocked item.addr ref).evictForRecordLocked dirty
  else if c.recordsLen < c.maxRecords then (c, dirty, .use (some ref))
  else match c.dropOldestHostLocked orders ref item.expires with
    | (c, true) => (c, true, .use (some ref))
    | (c, false) => (c, dirty, .skip)

def makeRoomLocked (orders : ItemOrders) (host : String) (item : Classified) (c : Controller) :
    Controller × Bool × Room :=
  match c.records.lookup item.addr with
  | none => c.evictForRecordLocked false
  | some ref =>
    if ((c.nodes ref).lookup host).isSome || c.recordsLen < c.maxRecords then (c, false, .use (some ref))
    else if item.direct then (c, false, .skip)
    else c.makeProxyRoomLocked orders ref item

def newAddressLocked (addr : Addr) (c : Controller) : Controller :=
  { c with
    records := c.records.insert addr c.fresh
    nodes := Function.update c.nodes c.fresh { addr := addr }
    lru := c.lru.clear c.fresh
    fresh := c.fresh + 1 }

/-- The address an answer is recorded at; a new one may first push out the oldest. -/
def openAddressLocked (addr : Addr) (address : Option Nat) (c : Controller) : Controller × Bool × Option Nat :=
  match address with
  | some ref => (c, false, some ref)
  | none =>
    if c.records.entries.length < c.maxEntries then (c.newAddressLocked addr, false, some c.fresh)
    else match c.evictOldestLocked with
      | (c, false) => (c, false, none)
      | (c, true) =>
        if c.records.entries.length ≥ c.maxEntries then (c, true, none)
        else (c.newAddressLocked addr, true, some c.fresh)

def recordLocked (host : String) (item : Classified) (ref : Nat) (c : Controller) : Controller × Bool :=
  let c := c.touchLocked ref
  let (a, prev) := (c.nodes ref).upsert host ⟨item.direct, item.expires, item.call⟩
  let c := c.setNode ref a
  let c : Controller := { c with
    recordsLen := if prev.isSome then c.recordsLen else c.recordsLen + 1
    nextExpiry := earlier c.nextExpiry item.expires }
  (c, prev.all fun prev => prev.direct != item.direct)

/-- One round of the loop over the classified answers. -/
def insertItem (orders : ItemOrders) (host : String) (now : Int) (state : Controller × Bool) (item : Classified) :
    Controller × Bool :=
  let (c, dirty) := state
  if item.expires ≤ now then (c, dirty)
  else match c.makeRoomLocked orders host item with
    | (c, d, .skip) => (c, dirty || d)
    | (c, d, .use address) =>
      match c.openAddressLocked item.addr address with
      | (c, d', none) => (c, dirty || d || d')
      | (c, d', some ref) =>
        let (c, d'') := c.recordLocked host item ref
        (c, dirty || d || d' || d'')

def insertItems (orders : Orders) (host : String) (now : Int) : Nat → List Classified → Controller × Bool → Controller × Bool
  | _, [], state => state
  | i, item :: items, state => insertItems orders host now (i + 1) items (insertItem (orders.item i) host now state item)

/-- The locked part of `observe`: the sets to publish, their generation and whether they changed;
`none` when a flush came between. -/
def insertLocked (orders : Orders) (flushSeq : Nat) (host : String) (items : List Classified) (now : Int) (c : Controller) :
    Controller × Option (DecisionSets × Nat × Bool) :=
  if c.closed ∨ c.flushSeq ≠ flushSeq then (c, none)
  else
    let (c, dirty) := insertItems orders host now 0 items (c.removeExpiredLocked orders now)
    if dirty then
      let (c, sets, generation, changed) := c.changedSetsLocked orders
      (c, some (sets, generation, changed))
    else (c, some (⟨∅, ∅⟩, c.generation, false))

def refreshed (isFakeIP : Addr → Bool) (now : Int) (answers : List DNSAnswer) : List (Addr × Int) :=
  answers.filterMap fun answer =>
    let addr := answer.addr.unmap
    if isUnsafeAddress isFakeIP addr then none else some (addr, now + clampTTL answer.ttl)

def stored (c : Controller) (addr : Addr) (host : String) : Option Record :=
  (c.records.lookup addr).bind fun ref => (c.nodes ref).lookup host

/-- One round of the second loop of `refreshExistingLocked`. -/
def refreshItem (host : String) (c : Controller) (item : Addr × Int) : Controller :=
  match c.records.lookup item.1 with
  | none => c
  | some ref =>
    match (c.nodes ref).lookup host with
    | none => c
    | some prev =>
      let c := c.setNode ref ((c.nodes ref).setExisting host { prev with expires := item.2 })
      let c := c.touchLocked ref
      { c with nextExpiry := earlier c.nextExpiry item.2 }

/-- `refreshExistingLocked` up to its wait: whether the response is handled. -/
def refreshExistingLocked (isFakeIP : Addr → Bool) (host : String) (answers : List DNSAnswer) (now : Int)
    (c : Controller) : Controller × Bool :=
  if c.closed then (c, true)
  else if c.nextExpiry.all fun t => t ≤ now then (c, false)
  else
    let items := refreshed isFakeIP now answers
    if items = [] then (c, false)
    else if items.all fun item => (c.stored item.1 host).any fun r => now < r.expires then
      (items.foldl (refreshItem host) c, true)
    else (c, false)

/-- One expiry tick: the sets to publish and their generation, if they changed. -/
def tickLocked (orders : Orders) (now : Int) (c : Controller) : Controller × Option (DecisionSets × Nat) :=
  if c.closed then (c, none)
  else
    let (c, changed) := c.removeExpiredLocked orders now
    if changed then
      let (c, sets, generation, changed) := c.changedSetsLocked orders
      (c, if changed then some (sets, generation) else none)
    else (c, none)

/-- The locked part of `flush`: the generation to wait for and whether it has to be published. -/
def flushLocked (c : Controller) : Controller × Option (Nat × Bool) :=
  if c.closed then (c, none)
  else
    let changed := c.lastDirect ≠ ∅ ∨ c.lastProxy ≠ ∅
    let c : Controller := { c with
      records := ∅
      recordsLen := 0
      lru := { c.lru with cold := none, hot := none }
      nextExpiry := none
      lastDirect := ∅
      lastProxy := ∅
      generation := if changed then c.generation + 1 else c.generation }
    (c, some (c.generation, decide changed))

/-- A whole `observe` call that nothing interrupts. -/
def observe (orders : Orders) (isFakeIP : Addr → Bool) (classifier : Option (String → Addr → Bool)) (call : Nat)
    (host : String) (answers : List DNSAnswer) (refreshAt observedAt now : Int) (c : Controller) : Controller :=
  let (c, handled) := c.refreshExistingLocked isFakeIP host answers refreshAt
  if handled then c
  else (c.insertLocked orders c.flushSeq host (classify isFakeIP classifier call host observedAt answers) now).1

def flush (c : Controller) : Controller :=
  (flushLocked { c with flushSeq := c.flushSeq + 1 }).1

end Controller

end AsterCore.KernelDirect
