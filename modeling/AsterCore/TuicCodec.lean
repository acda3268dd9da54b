import AsterCore.GoBinary

namespace AsterCore.Tuic

open GoBinary List

def connectType : UInt8 := 0x01

def packetType : UInt8 := 0x02

def atypDomainName : UInt8 := 0

def atypIPv4 : UInt8 := 1

def atypIPv6 : UInt8 := 2

def atypNone : UInt8 := 255

def commandString : UInt8 → String
  | 0 => "Authenticate"
  | 1 => "Connect"
  | 2 => "Packet"
  | 3 => "Dissociate"
  | 4 => "Heartbeat"
  | c => "UnknowCommand: 0x" ++ String.ofList (Nat.toDigits 16 c.toNat)

structure CommandHead where
  ver : UInt8 := 0x05
  type : UInt8
  deriving DecidableEq

structure Address where
  type : UInt8
  addr : List UInt8
  port : UInt16
  deriving DecidableEq

structure Connect where
  head : CommandHead
  addr : Address
  deriving DecidableEq

structure Packet where
  head : CommandHead
  assocId : UInt16
  pktId : UInt16
  fragTotal : UInt8
  fragId : UInt8
  size : UInt16
  addr : Address
  data : List UInt8
  deriving DecidableEq

/-- What `NewAddress` reads of its metadata: the bytes of a host, or a valid address. -/
inductive Destination
  | domain (host : List UInt8)
  | ipv4 (ip : BitVec 32)
  | ipv6 (ip : BitVec 128)

def Destination.hostLength : Destination → Nat
  | .domain host => host.length
  | _ => 0

def newAddress (dst : Destination) (port : UInt16) : Address :=
  match dst with
  | .domain host => ⟨atypDomainName, UInt8.ofNat host.length :: host, port⟩
  | .ipv4 ip => ⟨atypIPv4, bigEndian 4 ip.toNat, port⟩
  | .ipv6 ip => ⟨atypIPv6, bigEndian 16 ip.toNat, port⟩

def newConnect (addr : Address) : Connect := ⟨{ type := connectType }, addr⟩

def newPacket (assocId pktId : UInt16) (fragTotal fragId : UInt8) (size : UInt16) (addr : Address) (data : List UInt8) : Packet :=
  ⟨{ type := packetType }, assocId, pktId, fragTotal, fragId, size, addr, data⟩

def putUint16 (v : UInt16) : List UInt8 := bigEndian 2 v.toNat

def uint16 (b : List UInt8) : UInt16 := UInt16.ofNat (fromBigEndian b)

def CommandHead.writeTo (c : CommandHead) : List UInt8 := [c.ver, c.type]

def Address.writeTo (c : Address) : List UInt8 := c.type :: if c.type = atypNone then [] else c.addr ++ putUint16 c.port

def Connect.writeTo (c : Connect) : List UInt8 := c.head.writeTo ++ c.addr.writeTo

def Packet.header (c : Packet) : List UInt8 :=
  putUint16 c.assocId ++ putUint16 c.pktId ++ [c.fragTotal, c.fragId] ++ putUint16 c.size

def Packet.writeTo (c : Packet) : List UInt8 := c.head.writeTo ++ c.header ++ c.addr.writeTo ++ c.data

def readByte : List UInt8 → Except ReadError (UInt8 × List UInt8)
  | [] => .error .eof
  | b :: r => .ok (b, r)

def readCommandHead (r : List UInt8) : Except ReadError (CommandHead × List UInt8) := do
  let (ver, r) ← readByte r
  let (type, r) ← readByte r
  pure (⟨ver, type⟩, r)

/-- The host of `ReadAddress`. The length of the slice for it is a byte, and its first element is set. -/
def readDomain (r : List UInt8) : Except ReadError (List UInt8 × List UInt8) := do
  let (addrLen, r) ← readByte r
  let size := (addrLen + 1).toNat
  failIf (size = 0) .indexOutOfRange
  let (host, r) ← readFull (size - 1) r
  pure (addrLen :: host, r)

def readHost (type : UInt8) (r : List UInt8) : Except ReadError (List UInt8 × List UInt8) :=
  if type = atypIPv4 then readFull 4 r
  else if type = atypIPv6 then readFull 16 r
  else if type = atypDomainName then readDomain r
  else pure ([], r)

def readAddress (r : List UInt8) : Except ReadError (Address × List UInt8) := do
  let (type, r) ← readByte r
  let (addr, r) ← readHost type r
  if type = atypNone then return (⟨type, addr, 0⟩, r)
  let (port, r) ← readFull 2 r
  pure (⟨type, addr, uint16 port⟩, r)

def readConnectWithHead (head : CommandHead) (r : List UInt8) : Except ReadError (Connect × List UInt8) := do
  failIf (head.type ≠ connectType) (.message ("error command type: " ++ commandString head.type))
  let (addr, r) ← readAddress r
  pure (⟨head, addr⟩, r)

def readConnect (r : List UInt8) : Except ReadError (Connect × List UInt8) := do
  let (head, r) ← readCommandHead r
  readConnectWithHead head r

def readPacketWithHead (head : CommandHead) (r : List UInt8) : Except ReadError (Packet × List UInt8) := do
  failIf (head.type ≠ packetType) (.message ("error command type: " ++ commandString head.type))
  let (header, r) ← readFull 8 r
  let size := uint16 (header.drop 6)
  let (addr, r) ← readAddress r
  let (data, r) ← readFull size.toNat r
  pure (⟨head, uint16 (header.take 2), uint16 ((header.drop 2).take 2), header.getD 4 0, header.getD 5 0, size, addr, data⟩, r)

def readPacket (r : List UInt8) : Except ReadError (Packet × List UInt8) := do
  let (head, r) ← readCommandHead r
  readPacketWithHead head r

theorem uint16_putUint16 (v : UInt16) : uint16 (putUint16 v) = v := by
  rw [uint16, putUint16, fromBigEndian_bigEndian, Nat.mod_eq_of_lt (by exact v.toNat_lt)]
  exact UInt16.ofNat_toNat

theorem length_putUint16 (v : UInt16) : (putUint16 v).length = 2 := length_bigEndian 2 _

theorem readFull_panics (n : Nat) (r : List UInt8) : readFull n r ≠ .error .indexOutOfRange := by
  unfold readFull
  split
  · nofun
  · split <;> nofun

theorem ok_bind {α β : Type} (a : α) (next : α → Except ReadError β) : (Except.ok a >>= next) = next a := rfl

theorem bind_panics_iff {α β : Type} {x : Except ReadError α} {next : α → Except ReadError β}
    (hr : ∀ a, next a ≠ .error .indexOutOfRange) : (x >>= next) = .error .indexOutOfRange ↔ x = .error .indexOutOfRange := by
  cases x with
  | error => simp [bind, Except.bind]
  | ok => simp [ok_bind, hr]

theorem readFull_map_panics {β : Type} (n : Nat) (r : List UInt8) (f : List UInt8 × List UInt8 → β) :
    (readFull n r >>= fun read => pure (f read)) ≠ .error .indexOutOfRange := by
  have hd : ∀ read, (pure (f read) : Except ReadError β) ≠ .error .indexOutOfRange := fun _ => nofun
  exact (bind_panics_iff hd).not.mpr (readFull_panics n r)

theorem readDomain_panics_iff (addrLen : UInt8) (r : List UInt8) :
    readDomain (addrLen :: r) = .error .indexOutOfRange ↔ addrLen = 255 := by
  have hw : (addrLen + 1).toNat = 0 ↔ addrLen = 255 := by
    rw [← UInt8.toNat_zero, UInt8.toNat_inj]
    grind
  simp only [readDomain, readByte, ok_bind, hw]
  unfold failIf
  split
  next hl => simp [hl, bind, Except.bind]
  next hs =>
    rw [ok_bind]
    simp only [readFull_map_panics, hs]

theorem readHost_panics_iff (type : UInt8) (r : List UInt8) :
    readHost type r = .error .indexOutOfRange ↔ type = 0 ∧ ∃ rest, r = 255 :: rest := by
  unfold readHost
  split
  next v4 => simp [readFull_panics, v4, atypIPv4]
  split
  next v6 => simp [readFull_panics, v6, atypIPv6]
  split
  next hd =>
    rw [hd]
    cases r with
    | nil => simp [readDomain, readByte, bind, Except.bind]
    | cons => simp [readDomain_panics_iff, atypDomainName]
  next ho =>
    have : type ≠ 0 := ho
    simp [this, pure, Except.pure]

theorem readAddress_panics_iff (r : List UInt8) : readAddress r = .error .indexOutOfRange ↔ ∃ rest, r = 0 :: 255 :: rest := by
  cases r with
  | nil => simp [readAddress, readByte, bind, Except.bind]
  | cons _ r =>
    rw [readAddress, readByte, ok_bind, bind_panics_iff, readHost_panics_iff]
    · simp
    · intro (addr, r)
      dsimp only
      split
      · nofun
      · exact readFull_map_panics 2 r _

variable {dst : Destination}

theorem readHost_newAddress (hs : dst.hostLength < 255) (port : UInt16) (rest : List UInt8) :
    readHost (newAddress dst port).type ((newAddress dst port).addr ++ rest) = .ok ((newAddress dst port).addr, rest) := by
  cases dst with
  | domain host =>
    have : host.length < 255 := hs
    have size : (UInt8.ofNat host.length + 1).toNat = host.length + 1 := by
      rw [UInt8.toNat_add, UInt8.toNat_ofNat', UInt8.toNat_one]
      omega
    change readDomain (UInt8.ofNat host.length :: (host ++ rest)) = _
    rw [readDomain, readByte, ok_bind]
    dsimp only
    rw [size, failIf, if_neg (Nat.succ_ne_zero _), readFull_append (by rfl)]
    rfl
  | ipv4 =>
    exact readFull_append (length_bigEndian 4 _) rest
  | ipv6 =>
    have ho : atypIPv6 ≠ atypIPv4 := by decide
    simp only [newAddress, readHost, ho, if_false, if_true]
    exact readFull_append (length_bigEndian 16 _) rest

theorem readAddress_writeTo (hs : dst.hostLength < 255) (port : UInt16) (rest : List UInt8) :
    readAddress ((newAddress dst port).writeTo ++ rest) = .ok (newAddress dst port, rest) := by
  have hg : (newAddress dst port).type ≠ atypNone := by
    cases dst <;> simp [newAddress, atypDomainName, atypIPv4, atypIPv6, atypNone]
  rw [Address.writeTo, if_neg hg, cons_append, append_assoc, readAddress, readByte, ok_bind]
  dsimp only
  rw [readHost_newAddress hs, ok_bind, if_neg hg, readFull_append (length_putUint16 _), ok_bind]
  rw [uint16_putUint16]
  rfl

theorem readConnect_writeTo (hs : dst.hostLength < 255) (port : UInt16) (rest : List UInt8) :
    readConnect ((newConnect (newAddress dst port)).writeTo ++ rest) = .ok (newConnect (newAddress dst port), rest) := by
  change ((readAddress ((newAddress dst port).writeTo ++ rest)) >>= fun read => pure (newConnect read.1, read.2)) = _
  rw [readAddress_writeTo hs]
  rfl

theorem readPacket_writeTo {p : Packet} {addr : Address} (head : p.head = { type := packetType })
    (size : p.size.toNat = p.data.length) {rest : List UInt8}
    (hr : ∀ rest, readAddress (p.addr.writeTo ++ rest) = .ok (addr, rest)) :
    readPacket (p.writeTo ++ rest) = .ok ({ p with addr }, rest) := by
  have hh : p.header.length = 8 := rfl
  have hf : uint16 (p.header.drop 6) = p.size ∧ uint16 (p.header.take 2) = p.assocId ∧
      uint16 ((p.header.drop 2).take 2) = p.pktId ∧ p.header.getD 4 0 = p.fragTotal ∧ p.header.getD 5 0 = p.fragId :=
    ⟨uint16_putUint16 _, uint16_putUint16 _, uint16_putUint16 _, rfl, rfl⟩
  obtain ⟨hs, ha, pkt, total, id⟩ := hf
  rw [Packet.writeTo, head]
  simp only [append_assoc]
  change readPacketWithHead { type := packetType } (p.header ++ (p.addr.writeTo ++ (p.data ++ rest))) = _
  rw [readPacketWithHead, failIf, if_neg (by simp), ok_bind, readFull_append hh, ok_bind]
  dsimp only
  rw [hr, ok_bind, hs]
  rw [readFull_append size.symm, ha, pkt]
  rfl

theorem writeTo_long (hl : dst.hostLength = 255) (port : UInt16) :
    ∃ tail, (newAddress dst port).writeTo = 0 :: 255 :: tail := by
  cases dst with
  | domain host =>
    have : host.length = 255 := hl
    exact ⟨host ++ putUint16 port, by simp [Address.writeTo, newAddress, this, atypDomainName, atypNone]⟩
  | ipv4 | ipv6 => cases hl

theorem readConnect_panics_iff : ∀ r, readConnect r = .error .indexOutOfRange ↔ ∃ ver rest, r = ver :: 1 :: 0 :: 255 :: rest
  | [] | [_] => by simp [readConnect, readCommandHead, readByte, bind, Except.bind]
  | ver :: type :: r => by
    change readConnectWithHead ⟨ver, type⟩ r = _ ↔ _
    unfold readConnectWithHead failIf
    split
    next ho =>
      have : type ≠ 1 := ho
      simp [bind, Except.bind, this]
    next hs =>
      have : type = 1 := Decidable.not_not.mp hs
      have hd : ∀ read : Address × List UInt8,
          (pure (⟨⟨ver, type⟩, read.1⟩, read.2) : Except ReadError (Connect × List UInt8)) ≠ .error .indexOutOfRange := fun _ => nofun
      rw [ok_bind, bind_panics_iff hd, readAddress_panics_iff]
      simp [this]

theorem readPacket_panics_iff : ∀ r, readPacket r = .error .indexOutOfRange ↔
    ∃ ver header rest, header.length = 8 ∧ r = ver :: 2 :: (header ++ 0 :: 255 :: rest)
  | [] | [_] => by simp [readPacket, readCommandHead, readByte, bind, Except.bind]
  | ver :: type :: r => by
    change readPacketWithHead ⟨ver, type⟩ r = _ ↔ _
    unfold readPacketWithHead failIf
    split
    next ho =>
      have : type ≠ 2 := ho
      simp [bind, Except.bind, this]
    next hs =>
      have : type = 2 := Decidable.not_not.mp hs
      rw [ok_bind]
      by_cases long : 8 ≤ r.length
      · obtain ⟨header, rest, rfl, hl⟩ : ∃ header rest, r = header ++ rest ∧ header.length = 8 :=
          ⟨r.take 8, r.drop 8, by simp, by simp [long]⟩
        rw [readFull_append hl, ok_bind, bind_panics_iff fun read => readFull_map_panics _ _ _, readAddress_panics_iff]
        constructor
        · rintro ⟨after, rfl⟩
          exact ⟨ver, header, after, hl, by rw [this]⟩
        · rintro ⟨_, _, after, hl', eq⟩
          simp only [cons.injEq] at eq
          exact ⟨after, (append_inj eq.2.2 (hl.trans hl'.symm)).2⟩
      · have hn : ∀ header, header.length = 8 → ∀ rest, r ≠ header ++ 0 :: 255 :: rest := by
          rintro _ hl _ rfl
          simp [hl] at long
        rw [readFull, if_neg long]
        split <;> simpa [bind, Except.bind, this] using hn

/-- A command with a host of up to 255 bytes is read back, with what follows it left, unless the host has 255 bytes, and the inputs
on which a reader indexes out of range are those with such a host. -/
theorem command_round_trip (assocId pktId : UInt16) (fragTotal fragId : UInt8) (dst : Destination) (port : UInt16)
    (data rest r : List UInt8) (fits : dst.hostLength ≤ 255) (small : data.length ≤ 65535) :
    let p := newPacket assocId pktId fragTotal fragId (UInt16.ofNat data.length) (newAddress dst port) data
    (readConnect ((newConnect (newAddress dst port)).writeTo ++ rest) = .ok (newConnect (newAddress dst port), rest) ↔
      dst.hostLength ≠ 255) ∧
    (readPacket (p.writeTo ++ rest) = .ok (p, rest) ↔ dst.hostLength ≠ 255) ∧
    (readConnect r ≠ .error .indexOutOfRange ↔ ¬∃ ver rest, r = ver :: 1 :: 0 :: 255 :: rest) ∧
    (readPacket r ≠ .error .indexOutOfRange ↔
      ¬∃ ver header rest, header.length = 8 ∧ r = ver :: 2 :: (header ++ 0 :: 255 :: rest)) := by
  intro p
  refine ⟨⟨fun read hl => ?_, fun hs => ?_⟩, ⟨fun read hl => ?_, fun hs => ?_⟩, (readConnect_panics_iff r).not,
    (readPacket_panics_iff r).not⟩
  · obtain ⟨tail, hw⟩ := writeTo_long hl port
    rw [(readConnect_panics_iff _).mpr ⟨5, tail ++ rest, by simp [Connect.writeTo, newConnect, CommandHead.writeTo, connectType, hw]⟩] at read
    cases read
  · exact readConnect_writeTo (by omega) port rest
  · obtain ⟨tail, hw⟩ := writeTo_long hl port
    have bytes : p.writeTo ++ rest = 5 :: 2 :: (p.header ++ 0 :: 255 :: (tail ++ data ++ rest)) := by
      simp [Packet.writeTo, p, newPacket, CommandHead.writeTo, packetType, hw]
    rw [(readPacket_panics_iff _).mpr ⟨5, p.header, _, rfl, bytes⟩] at read
    cases read
  · have size := UInt16.toNat_ofNat_of_lt' (Nat.lt_succ_of_le small)
    exact readPacket_writeTo rfl size (readAddress_writeTo (by omega) port)

def sampleHost : Destination := .domain [97, 46, 98]

theorem command_round_trip_sample :
    readPacket ((newPacket 1 2 1 0 2 (newAddress sampleHost 53) [7, 8]).writeTo ++ [9]) =
      .ok (newPacket 1 2 1 0 2 (newAddress sampleHost 53) [7, 8], [9]) :=
  (command_round_trip 1 2 1 0 sampleHost 53 [7, 8] [9] [] (by decide) (by decide)).2.1.mpr (by decide)

/-- A connect command for a host of 255 bytes. -/
theorem command_round_trip_not :
    readConnect (newConnect (newAddress (.domain (List.replicate 255 97)) 80)).writeTo = .error .indexOutOfRange := by
  have hl : (Destination.domain (replicate 255 97)).hostLength = 255 := length_replicate
  obtain ⟨tail, hw⟩ := writeTo_long hl 80
  exact (readConnect_panics_iff _).mpr ⟨5, tail, congrArg (5 :: 1 :: ·) hw⟩

end AsterCore.Tuic
