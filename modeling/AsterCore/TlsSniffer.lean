import Mathlib.Algebra.Group.Nat.Defs
import AsterCore.Segments

namespace AsterCore.Sniffer

open Segments List Settles UInt8

/-- The errors of the sniffers. `needAtLeastData` is the only one after which a sniffer is asked again. -/
inductive SniffError
  | needAtLeastData (length : Nat)
  | noClue
  | notTLS
  | notClientHello
  | notHTTP
  | hostIsIP
  | notQUIC
  | notQUICInitial
  | unexpectedEOF
  | shortBuffer
  deriving DecidableEq, Repr

def SniffError.needs : SniffError → Option Nat
  | .needAtLeastData length => some length
  | _ => none

abbrev Verdict := Except SniffError (List UInt8)

/-- `int(data[i])`; the code looks only at bytes that are there. -/
def byteAt (data : List UInt8) (i : Nat) : Nat := (data.getD i 0).toNat

def uint16At (data : List UInt8) (i : Nat) : Nat := byteAt data i * 256 + byteAt data (i + 1)

def tlsRecordHeaderLen : Nat := 5
def tlsHandshakeHeaderLen : Nat := 4
def tlsRecordTypeHandshake : Nat := 0x16
def tlsHandshakeTypeClientHello : Nat := 0x01
def tlsMaxPlaintext : Nat := 2 ^ 14

def clientHelloSize (data : List UInt8) : Except SniffError Nat :=
  if data.length < tlsHandshakeHeaderLen then .error .noClue
  else if byteAt data 0 ≠ tlsHandshakeTypeClientHello then .error .notClientHello
  else .ok (tlsHandshakeHeaderLen + (byteAt data 1 * 65536 + byteAt data 2 * 256 + byteAt data 3))

/-- The check `need` of `readClientHello`, and what comes after it. -/
def need (data : List UInt8) (helloSize length : Nat) (next : Verdict) : Verdict :=
  if helloSize < length then .error .notClientHello
  else if data.length < length then .error (.needAtLeastData length)
  else next

def serverName (name : List UInt8) : Verdict := if name.getLast? = some 46 then .error .notClientHello else .ok name

/-- A name of type `header.1` and length `header.2` at the offset, and the names after it. -/
def readName (helloSize namesEnd : Nat) (rest : Nat → List UInt8 → Verdict) (offset : Nat) (header : Nat × Nat)
    (data : List UInt8) : Verdict :=
  let nameEnd := offset + header.2
  if namesEnd < nameEnd then .error .notClientHello
  else need data helloSize nameEnd <|
    if header.1 = 0 then serverName ((data.take nameEnd).drop offset) else rest nameEnd data

/-- The loop over the names; after it `next`. Every turn takes three bytes or more, so the fuel is enough. -/
def readNames (helloSize namesEnd : Nat) (next : List UInt8 → Verdict) : Nat → Nat → List UInt8 → Verdict
  | 0, _, data => next data
  | fuel + 1, offset, data =>
    if offset < namesEnd then
      need data helloSize (offset + 3) <|
        readName helloSize namesEnd (readNames helloSize namesEnd next fuel) (offset + 3)
          (byteAt data offset, uint16At data (offset + 1)) data
    else next data

def readServerNames (helloSize : Nat) (rest : Nat → List UInt8 → Verdict) (offset extensionEnd namesLen : Nat)
    (data : List UInt8) : Verdict :=
  let namesEnd := offset + namesLen
  if namesEnd ≠ extensionEnd then .error .notClientHello
  else readNames helloSize namesEnd (rest namesEnd) namesLen offset data

/-- An extension of type `header.1` and length `header.2` at the offset, and the extensions after it. -/
def readExtension (helloSize : Nat) (rest : Nat → List UInt8 → Verdict) (offset : Nat) (header : Nat × Nat)
    (data : List UInt8) : Verdict :=
  let extensionEnd := offset + header.2
  if helloSize < extensionEnd then .error .notClientHello
  else if header.1 = 0 then
    if header.2 < 2 then .error .notClientHello
    else need data helloSize (offset + 2) <|
      readServerNames helloSize rest (offset + 2) extensionEnd (uint16At data offset) data
  else if extensionEnd = helloSize then .error .notTLS
  else need data helloSize extensionEnd <| rest extensionEnd data

/-- The loop over the extensions, which end with the message. Every turn takes four bytes or more. -/
def readExtensions (helloSize : Nat) : Nat → Nat → List UInt8 → Verdict
  | 0, _, _ => .error .notTLS
  | fuel + 1, offset, data =>
    if offset < helloSize then
      need data helloSize (offset + 4) <|
        readExtension helloSize (readExtensions helloSize fuel) (offset + 4)
          (uint16At data offset, uint16At data (offset + 2)) data
    else .error .notTLS

def readExtensionsLength (helloSize offset extensionsLength : Nat) (data : List UInt8) : Verdict :=
  if offset + extensionsLength ≠ helloSize then .error .notClientHello
  else readExtensions helloSize extensionsLength offset data

def readCompressionMethods (helloSize offset compressionMethodsLen : Nat) (data : List UInt8) : Verdict :=
  let offset := offset + compressionMethodsLen
  need data helloSize offset <|
    if offset = helloSize then .error .notClientHello
    else need data helloSize (offset + 2) <| readExtensionsLength helloSize (offset + 2) (uint16At data offset) data

def readCipherSuites (helloSize offset cipherSuiteLen : Nat) (data : List UInt8) : Verdict :=
  if cipherSuiteLen % 2 = 1 then .error .notClientHello
  else
    let offset := offset + cipherSuiteLen
    need data helloSize offset <| need data helloSize (offset + 1) <|
      readCompressionMethods helloSize (offset + 1) (byteAt data offset) data

def readSessionID (helloSize offset sessionIDLen : Nat) (data : List UInt8) : Verdict :=
  if 32 < sessionIDLen then .error .notClientHello
  else
    let offset := offset + sessionIDLen
    need data helloSize offset <| need data helloSize (offset + 2) <|
      readCipherSuites helloSize (offset + 2) (uint16At data offset) data

/-- The part of `readClientHello` after the size of the message is known, from the session ID on. -/
def readHello (helloSize : Nat) (data : List UInt8) : Verdict :=
  let offset := tlsHandshakeHeaderLen + 2 + 32
  need data helloSize (offset + 1) <| readSessionID helloSize (offset + 1) (byteAt data offset) data

def readClientHello (data : List UInt8) : Verdict :=
  if data.length < 1 then .error (.needAtLeastData 1)
  else if byteAt data 0 ≠ tlsHandshakeTypeClientHello then .error .notClientHello
  else if data.length < tlsHandshakeHeaderLen then .error (.needAtLeastData tlsHandshakeHeaderLen)
  else match clientHelloSize data with
    | .error e => .error e
    | .ok helloSize => readHello helloSize (data.take helloSize)

def isValidTLSVersion (major _minor : Nat) : Bool := major == 3

/-- The end of a turn of the loop of `sniffTLS`: the handshake bytes of the records up to `recordEnd`, of which those from
`payloadEnd` on are still missing. -/
def sniffPayload (rest : Nat → List UInt8 → Verdict) (payloadEnd recordEnd : Nat) (clientHello : List UInt8) : Verdict :=
  match readClientHello clientHello with
  | .ok domain => .ok domain
  | .error (.needAtLeastData length) =>
    if payloadEnd < recordEnd then
      .error (.needAtLeastData (payloadEnd + min (length - clientHello.length) (recordEnd - payloadEnd)))
    else rest recordEnd clientHello
  | .error e => .error e

/-- One turn of the loop of `sniffTLS` for the record at the offset, after the handshake bytes of the records before. -/
def sniffRecord (rest : Nat → List UInt8 → Verdict) (b : List UInt8) (wireOffset : Nat) (clientHello : List UInt8) : Verdict :=
  if byteAt b wireOffset ≠ tlsRecordTypeHandshake ∨ !isValidTLSVersion (byteAt b (wireOffset + 1)) (byteAt b (wireOffset + 2)) then
    .error .notTLS
  else
    let recordLen := uint16At b (wireOffset + 3)
    if tlsMaxPlaintext < recordLen then .error .notTLS
    else if recordLen = 0 then .error .notClientHello
    else
      let payloadOffset := wireOffset + tlsRecordHeaderLen
      let recordEnd := payloadOffset + recordLen
      let payloadEnd := max (min b.length recordEnd) payloadOffset
      sniffPayload rest payloadEnd recordEnd (clientHello ++ (b.take payloadEnd).drop payloadOffset)

/-- The loop of `sniffTLS`. A record has at least one byte of payload, so the fuel is enough. -/
def sniffRecords (b : List UInt8) : Nat → Nat → List UInt8 → Verdict
  | 0, wireOffset, _ => .error (.needAtLeastData (wireOffset + tlsRecordHeaderLen))
  | fuel + 1, wireOffset, clientHello =>
    if b.length - wireOffset < tlsRecordHeaderLen then .error (.needAtLeastData (wireOffset + tlsRecordHeaderLen))
    else sniffRecord (sniffRecords b fuel) b wireOffset clientHello

def sniffTLS (b : List UInt8) : Verdict := sniffRecords b b.length 0 []

/-! Segments. -/

variable {limit : Nat → Prop} {n helloSize offset : Nat}

variable {data hello more b : List UInt8} {rest rest' : Nat → List UInt8 → Verdict} {fuel recordEnd wireOffset : Nat}

abbrev Reads (helloSize n : Nat) (read : List UInt8 → Verdict) : Prop := Settles SniffError.needs (· ≤ helloSize) n read

abbrev Keeps (size extra : Nat) (now later : Verdict) : Prop := Stays SniffError.needs (fun _ => True) size extra now later

theorem byteAt_append {i : Nat} (more : List UInt8) (lt : i < data.length) : byteAt (data ++ more) i = byteAt data i := by
  unfold byteAt
  rw [getD_eq_getElem?_getD, getElem?_append_left lt, ← getD_eq_getElem?_getD]

theorem uint16At_append {i : Nat} (more : List UInt8) (lt : i + 1 < data.length) :
    uint16At (data ++ more) i = uint16At data i := by
  unfold uint16At
  rw [byteAt_append more (by omega), byteAt_append more lt]

theorem settles_error {e : SniffError} (hf : e.needs = none) :
    Settles SniffError.needs limit n (fun _ : List UInt8 => (.error e : Verdict)) :=
  const hf

theorem settles_need {length : Nat} {g : List UInt8 → Verdict} (h : Reads helloSize (max n length) g) :
    Reads helloSize n (fun data => need data helloSize length (g data)) := by
  refine ite (fun _ => settles_error rfl) fun hw => ?_
  exact demand rfl (Nat.le_of_not_lt hw) h

theorem settles_readName {namesEnd : Nat} (header : Nat × Nat) (h : ∀ n offset, Reads helloSize n (rest offset)) :
    Reads helloSize n (readName helloSize namesEnd rest offset header) := by
  refine ite (fun _ => settles_error rfl) fun _ => settles_need ?_
  refine ite (fun _ => ?_) fun _ => h _ _
  refine read (g := fun name _ => serverName name) (fun data more le => ?_) fun data _ => const ?_
  · rw [take_append_of_le_length (by omega)]
  · unfold serverName
    split <;> rfl

theorem settles_readNames {namesEnd : Nat} {next : List UInt8 → Verdict} (h : ∀ n, Reads helloSize n next) :
    Reads helloSize n (readNames helloSize namesEnd next fuel offset) := by
  induction fuel generalizing n offset with
  | zero => exact h n
  | succ _ ih =>
    refine ite (fun _ => settles_need ?_) fun _ => h n
    refine read (fun data more le => ?_) fun data _ => settles_readName _ fun n offset => ih
    rw [byteAt_append more (by omega), uint16At_append more (by omega)]

theorem settles_readServerNames {extensionEnd namesLen : Nat} (h : ∀ n offset, Reads helloSize n (rest offset)) :
    Reads helloSize n (readServerNames helloSize rest offset extensionEnd namesLen) := by
  exact ite (fun _ => settles_error rfl) fun _ => settles_readNames fun n => h n _

theorem settles_readExtension (header : Nat × Nat) (h : ∀ n offset, Reads helloSize n (rest offset)) :
    Reads helloSize n (readExtension helloSize rest offset header) := by
  refine ite (fun _ => settles_error rfl) fun _ => ite (fun _ => ?_) fun _ => ?_
  · refine ite (fun _ => settles_error rfl) fun _ => settles_need ?_
    refine read (fun data more le => ?_) fun data _ => settles_readServerNames h
    exact uint16At_append more (by omega)
  · exact ite (fun _ => settles_error rfl) fun _ => settles_need (h _ _)

theorem settles_readExtensions : Reads helloSize n (readExtensions helloSize fuel offset) := by
  induction fuel generalizing n offset with
  | zero => exact settles_error rfl
  | succ _ ih =>
    refine ite (fun _ => settles_need ?_) fun _ => settles_error rfl
    refine read (fun data more le => ?_) fun data _ => settles_readExtension _ fun n offset => ih
    rw [uint16At_append more (by omega), uint16At_append more (by omega)]

theorem settles_readHello : Reads helloSize n (readHello helloSize) := by
  refine settles_need (read (fun data more le => byteAt_append more (by omega)) fun data _ => ?_)
  refine ite (fun _ => settles_error rfl) fun _ => settles_need (settles_need ?_)
  refine read (fun data more le => uint16At_append more (by omega)) fun data _ => ?_
  refine ite (fun _ => settles_error rfl) fun _ => settles_need (settles_need ?_)
  refine read (fun data more le => byteAt_append more (by omega)) fun data _ => ?_
  refine settles_need (ite (fun _ => settles_error rfl) fun _ => settles_need ?_)
  refine read (fun data more le => uint16At_append more (by omega)) fun data _ => ?_
  exact ite (fun _ => settles_error rfl) fun _ => settles_readExtensions

def helloSizeOf (data : List UInt8) : Nat :=
  tlsHandshakeHeaderLen + (byteAt data 1 * 65536 + byteAt data 2 * 256 + byteAt data 3)

theorem clientHelloSize_eq (le : 4 ≤ data.length) (hf : byteAt data 0 = 1) : clientHelloSize data = .ok (helloSizeOf data) := by
  unfold clientHelloSize
  rw [if_neg (show ¬data.length < tlsHandshakeHeaderLen from by simp [tlsHandshakeHeaderLen]; omega),
    if_neg (show ¬byteAt data 0 ≠ tlsHandshakeTypeClientHello from by simp [tlsHandshakeTypeClientHello, hf])]
  rfl

theorem clientHelloSize_append (more : List UInt8) (le : 4 ≤ data.length) :
    clientHelloSize (data ++ more) = clientHelloSize data := by
  unfold clientHelloSize
  have long : ¬data.length < tlsHandshakeHeaderLen := Nat.not_lt.mpr le
  have hl : ¬(data ++ more).length < tlsHandshakeHeaderLen := by
    rw [length_append]
    omega
  rw [if_neg long, if_neg hl, byteAt_append more (by omega), byteAt_append more (by omega), byteAt_append more (by omega),
    byteAt_append more (by omega)]

theorem settles_readClientHello : Settles SniffError.needs (fun _ => True) 0 readClientHello := by
  refine demand rfl trivial ?_
  refine read (v := fun data => byteAt data 0)
    (g := fun first data => if first ≠ tlsHandshakeTypeClientHello then .error .notClientHello
      else if data.length < tlsHandshakeHeaderLen then .error (.needAtLeastData tlsHandshakeHeaderLen)
      else match clientHelloSize data with
        | .error e => .error e
        | .ok helloSize => readHello helloSize (data.take helloSize))
    (fun data more le => byteAt_append more (by omega)) fun data _ => ?_
  refine ite (fun _ => settles_error rfl) fun _ => demand rfl trivial ?_
  have he {data : List UInt8} (le : max (max 0 1) tlsHandshakeHeaderLen ≤ data.length) : 4 ≤ data.length :=
    Nat.le_trans (Nat.le_max_right ..) le
  refine read (v := clientHelloSize)
    (g := fun size data => match size with
      | .error e => .error e
      | .ok helloSize => readHello helloSize (data.take helloSize))
    (fun data more le => clientHelloSize_append more (he le)) fun data le => ?_
  unfold clientHelloSize
  rw [if_neg (show ¬data.length < tlsHandshakeHeaderLen from Nat.not_lt.mpr (he le))]
  split
  next size =>
    split at size <;> cases size
    exact settles_error rfl
  next size =>
    split at size <;> cases size
    refine weaken (take settles_readHello ?_) fun _ _ => trivial
    exact Nat.le_add_right 4 _

structure ClientHelloMessage (data : List UInt8) : Prop where
  header : 4 ≤ data.length
  first : byteAt data 0 = tlsHandshakeTypeClientHello
  length : data.length = helloSizeOf data

theorem readClientHello_final (h : ClientHelloMessage data) : asks SniffError.needs (readClientHello data) = none := by
  have eq : readClientHello data = readHello data.length data := by
    unfold readClientHello
    rw [if_neg (by have := h.header; omega), if_neg (not_not.mpr h.first),
      if_neg (show ¬data.length < tlsHandshakeHeaderLen from Nat.not_lt.mpr h.header),
      clientHelloSize_eq h.header h.first, ← h.length]
    simp only [take_length]
  rw [eq]
  by_contra ha
  obtain ⟨length, has⟩ := Option.ne_none_iff_exists'.mp ha
  have hs : Reads data.length 0 (readHello data.length) := settles_readHello
  obtain ⟨_, _⟩ := (hs data [] (Nat.zero_le _)).1 length has
  omega

theorem final_or_asking (verdict : Verdict) :
    asks SniffError.needs verdict = none ∨ ∃ length, verdict = .error (.needAtLeastData length) := by
  rcases verdict with e | domain
  · cases e with
    | needAtLeastData length => exact .inr ⟨length, rfl⟩
    | _ => exact .inl rfl
  · exact .inl rfl

theorem sniffPayload_final {payloadEnd : Nat} (hf : asks SniffError.needs (readClientHello hello) = none) :
    sniffPayload rest payloadEnd recordEnd hello = readClientHello hello := by
  unfold sniffPayload
  split
  next hv => exact hv.symm
  next hv =>
    rw [hv] at hf
    cases hf
  next hv => exact hv.symm

theorem sniffPayload_asking {payloadEnd length : Nat} (ha : readClientHello hello = .error (.needAtLeastData length)) :
    sniffPayload rest payloadEnd recordEnd hello =
      if payloadEnd < recordEnd then
        .error (.needAtLeastData (payloadEnd + min (length - hello.length) (recordEnd - payloadEnd)))
      else rest recordEnd hello := by
  unfold sniffPayload
  rw [ha]

theorem sniffPayload_stays {size extra : Nat} (hu : size < recordEnd) (hl : more.length = min extra (recordEnd - size)) :
    Keeps size extra (sniffPayload rest size recordEnd hello)
      (sniffPayload rest' (min (size + extra) recordEnd) recordEnd (hello ++ more)) := by
  obtain ⟨had, hs⟩ := settles_readClientHello hello more (Nat.zero_le _)
  rcases final_or_asking (readClientHello hello) with hf | ⟨needed, ha⟩
  · have same := hs (by simp [hf])
    rw [sniffPayload_final hf, sniffPayload_final (by rw [same, hf]), same]
    exact Stays.refl hf
  · have lt := (had needed (by rw [ha]; rfl)).1
    rw [sniffPayload_asking ha, if_pos hu]
    constructor
    · rintro _ ⟨⟩
      exact ⟨by omega, trivial⟩
    · intro hst
      have below := hst _ rfl
      have hag : readClientHello (hello ++ more) = .error (.needAtLeastData needed) := by
        rw [← ha]
        refine hs ?_
        rw [ha]
        rintro _ ⟨⟩
        omega
      -- what is missing has become less by what has come
      rw [sniffPayload_asking hag, if_pos (by omega), length_append]
      congr 2
      omega

theorem sniffPayload_complete {size extra : Nat} (hg : Keeps size extra (rest recordEnd hello) (rest' recordEnd hello)) :
    Keeps size extra (sniffPayload rest recordEnd recordEnd hello)
      (sniffPayload rest' recordEnd recordEnd hello) := by
  rcases final_or_asking (readClientHello hello) with hf | ⟨needed, ha⟩
  · rw [sniffPayload_final hf, sniffPayload_final hf]
    exact Stays.refl hf
  · rw [sniffPayload_asking ha, sniffPayload_asking ha, if_neg (Nat.lt_irrefl _), if_neg (Nat.lt_irrefl _)]
    exact hg

theorem sniffRecord_stays (hh : wireOffset + tlsRecordHeaderLen ≤ b.length)
    (hg : ∀ recordEnd hello, wireOffset < recordEnd → recordEnd ≤ b.length →
      Keeps b.length more.length (rest recordEnd hello) (rest' recordEnd hello)) :
    Keeps b.length more.length (sniffRecord rest b wireOffset hello)
      (sniffRecord rest' (b ++ more) wireOffset hello) := by
  unfold tlsRecordHeaderLen at hh
  unfold sniffRecord
  rw [byteAt_append more (by omega), byteAt_append more (by omega), byteAt_append more (by omega),
    uint16At_append more (by omega), length_append]
  generalize uint16At b (wireOffset + 3) = recordLen
  dsimp only
  split
  · exact Stays.refl rfl
  split
  · exact Stays.refl rfl
  split
  · exact Stays.refl rfl
  simp only [tlsRecordHeaderLen]
  by_cases hw : wireOffset + 5 + recordLen ≤ b.length
  · have he : max (min b.length (wireOffset + 5 + recordLen)) (wireOffset + 5) = wireOffset + 5 + recordLen := by omega
    have he' : max (min (b.length + more.length) (wireOffset + 5 + recordLen)) (wireOffset + 5) = wireOffset + 5 + recordLen := by
      omega
    rw [he, he', take_append_of_le_length hw]
    exact sniffPayload_complete (hg _ _ (by omega) hw)
  · have he : max (min b.length (wireOffset + 5 + recordLen)) (wireOffset + 5) = b.length := by omega
    have he' : max (min (b.length + more.length) (wireOffset + 5 + recordLen)) (wireOffset + 5) =
        min (b.length + more.length) (wireOffset + 5 + recordLen) := by omega
    have hp : (take (min (b.length + more.length) (wireOffset + 5 + recordLen)) (b ++ more)).drop (wireOffset + 5) =
        (b.take b.length).drop (wireOffset + 5) ++ more.take (wireOffset + 5 + recordLen - b.length) := by
      rw [take_append, take_of_length_le (by omega), take_length, drop_append_of_le_length hh]
      congr 1
      rw [take_eq_take_iff]
      omega
    rw [he, he', hp, ← append_assoc]
    refine sniffPayload_stays (by omega) ?_
    rw [length_take]
    omega

theorem sniffRecords_short (hs : b.length - wireOffset < tlsRecordHeaderLen) :
    sniffRecords b fuel wireOffset hello = .error (.needAtLeastData (wireOffset + tlsRecordHeaderLen)) := by
  cases fuel with
  | zero => rfl
  | succ => exact if_pos hs

theorem sniffRecords_header {fuel' : Nat} (hs : b.length - wireOffset < tlsRecordHeaderLen) (le : wireOffset ≤ b.length) :
    Keeps b.length more.length (sniffRecords b fuel wireOffset hello)
      (sniffRecords (b ++ more) fuel' wireOffset hello) := by
  rw [sniffRecords_short hs]
  constructor
  · rintro _ ⟨⟩
    exact ⟨by omega, trivial⟩
  · intro hst
    have below := hst _ rfl
    exact sniffRecords_short (by rw [length_append]; omega)

theorem sniffRecords_stays : ∀ (fuel fuel' wireOffset : Nat) (hello : List UInt8),
    wireOffset ≤ b.length → b.length - wireOffset ≤ fuel → b.length + more.length - wireOffset ≤ fuel' →
    Keeps b.length more.length (sniffRecords b fuel wireOffset hello)
      (sniffRecords (b ++ more) fuel' wireOffset hello) := by
  intro fuel
  induction fuel with
  | zero =>
    intro _ _ _ le _ _
    refine sniffRecords_header ?_ le
    unfold tlsRecordHeaderLen
    omega
  | succ _ ih =>
    intro fuel' wireOffset hello le _ _
    by_cases hs : b.length - wireOffset < tlsRecordHeaderLen
    · exact sniffRecords_header hs le
    · have hh : wireOffset + 5 ≤ b.length := by
        unfold tlsRecordHeaderLen at hs
        omega
      obtain ⟨fuel', rfl⟩ := Nat.exists_eq_succ_of_ne_zero (n := fuel') (by omega)
      unfold sniffRecords
      rw [if_neg hs, if_neg (by rw [length_append]; omega)]
      refine sniffRecord_stays hh fun recordEnd hello later hw => ?_
      exact ih fuel' recordEnd hello hw (by omega) (by omega)

theorem settles_sniffTLS : Settles SniffError.needs (fun _ => True) 0 sniffTLS := by
  intro _ _ _
  exact sniffRecords_stays _ _ 0 [] (Nat.zero_le _) (Nat.sub_le ..) (by rw [length_append]; omega)

/-! Records. -/

def tlsRecord (minor : UInt8) (payload : List UInt8) : List UInt8 :=
  [0x16, 3, minor, UInt8.ofNat (payload.length / 256), UInt8.ofNat payload.length] ++ payload

def tlsRecords (pieces : List (UInt8 × List UInt8)) : List UInt8 := pieces.flatMap fun piece => tlsRecord piece.1 piece.2

theorem byteAt_shift (before data : List UInt8) (i : Nat) : byteAt (before ++ data) (before.length + i) = byteAt data i := by
  unfold byteAt
  rw [getD_eq_getElem?_getD, getElem?_append_right (Nat.le_add_right ..), Nat.add_sub_cancel_left,
    ← getD_eq_getElem?_getD]

theorem uint16At_shift (before data : List UInt8) (i : Nat) :
    uint16At (before ++ data) (before.length + i) = uint16At data i := by
  unfold uint16At
  rw [byteAt_shift, Nat.add_assoc, byteAt_shift]

theorem tlsRecord_length (minor : UInt8) (payload : List UInt8) : (tlsRecord minor payload).length = payload.length + 5 :=
  length_append.trans (Nat.add_comm ..)

theorem tlsRecord_recordLen {minor : UInt8} {payload after : List UInt8} (le : payload.length ≤ 2 ^ 14) :
    uint16At (tlsRecord minor payload ++ after) 3 = payload.length := by
  have high : (ofNat (payload.length / 256)).toNat = payload.length / 256 := by
    rw [toNat_ofNat']
    omega
  have low : (ofNat payload.length).toNat = payload.length % 256 := toNat_ofNat'
  show (ofNat (payload.length / 256)).toNat * 256 + (ofNat payload.length).toNat = payload.length
  omega

theorem sniffRecord_piece {before after payload : List UInt8} {minor : UInt8}
    (nonempty : 0 < payload.length) (le : payload.length ≤ 2 ^ 14) :
    sniffRecord rest (before ++ (tlsRecord minor payload ++ after)) before.length hello =
      sniffPayload rest (before ++ tlsRecord minor payload).length (before ++ tlsRecord minor payload).length
        (hello ++ payload) := by
  have recordEnd : (before ++ tlsRecord minor payload).length = before.length + 5 + payload.length := by
    rw [length_append, tlsRecord_length]
    omega
  have total : (before ++ (tlsRecord minor payload ++ after)).length = before.length + 5 + payload.length + after.length := by
    rw [← append_assoc, length_append, recordEnd]
  have hpe : max (min (before ++ (tlsRecord minor payload ++ after)).length (before.length + 5 + payload.length))
      (before.length + 5) = before.length + 5 + payload.length := by
    omega
  have ht : ((before ++ (tlsRecord minor payload ++ after)).take (before.length + 5 + payload.length)).drop
      (before.length + 5) = payload := by
    rw [← recordEnd, ← append_assoc, take_left, drop_append, drop_of_length_le (by omega),
      Nat.add_sub_cancel_left]
    rfl
  have type : byteAt (before ++ (tlsRecord minor payload ++ after)) before.length = tlsRecordTypeHandshake :=
    byteAt_shift before _ 0
  have hm : byteAt (before ++ (tlsRecord minor payload ++ after)) (before.length + 1) = 3 := byteAt_shift before _ 1
  unfold sniffRecord
  rw [uint16At_shift, tlsRecord_recordLen le, type, hm]
  dsimp only
  rw [if_neg (by simp [isValidTLSVersion]), if_neg (show ¬tlsMaxPlaintext < payload.length from Nat.not_lt.mpr le),
    if_neg (Nat.pos_iff_ne_zero.mp nonempty)]
  unfold tlsRecordHeaderLen
  rw [hpe, ht, recordEnd]

theorem sniffRecords_pieces {message : List UInt8} (hf : asks SniffError.needs (readClientHello message) = none) :
    ∀ (pieces : List (UInt8 × List UInt8)) (before hello : List UInt8) (fuel : Nat),
      (∀ piece ∈ pieces, 0 < piece.2.length ∧ piece.2.length ≤ 2 ^ 14) →
      hello ++ pieces.flatMap Prod.snd = message →
      asks SniffError.needs (readClientHello hello) ≠ none →
      (tlsRecords pieces).length ≤ fuel →
      sniffRecords (before ++ tlsRecords pieces) fuel before.length hello = readClientHello message := by
  intro pieces
  induction pieces with
  | nil =>
    intro _ _ _ _ hw other _
    rw [flatMap_nil, append_nil] at hw
    exact absurd (hw ▸ hf) other
  | cons piece pieces ih =>
    intro before hello fuel hs hw _ he
    obtain ⟨nonempty, le⟩ := hs piece (mem_cons_self ..)
    rw [flatMap_cons, ← append_assoc] at hw
    have hr : tlsRecords (piece :: pieces) = tlsRecord piece.1 piece.2 ++ tlsRecords pieces := flatMap_cons ..
    rw [hr, length_append, tlsRecord_length] at he
    obtain ⟨fuel, rfl⟩ := Nat.exists_eq_succ_of_ne_zero (n := fuel) (by omega)
    have hh : ¬(before ++ (tlsRecord piece.1 piece.2 ++ tlsRecords pieces)).length - before.length < tlsRecordHeaderLen := by
      simp only [length_append, tlsRecord_length, tlsRecordHeaderLen]
      omega
    unfold sniffRecords
    rw [hr, if_neg hh, sniffRecord_piece nonempty le]
    rcases final_or_asking (readClientHello (hello ++ piece.2)) with hd | ⟨length, ha⟩
    · rw [sniffPayload_final hd, ← hw]
      refine ((settles_readClientHello _ _ (Nat.zero_le _)).2 ?_).symm
      simp [hd]
    · rw [sniffPayload_asking ha, if_neg (Nat.lt_irrefl _), ← append_assoc]
      refine ih (before ++ tlsRecord piece.1 piece.2) _ fuel (fun piece mem => hs piece (mem_cons_of_mem _ mem)) hw ?_
        (by omega)
      rw [ha]
      exact Option.some_ne_none length

def Final (verdict : Verdict) : Prop := asks SniffError.needs verdict = none

instance (verdict : Verdict) : Decidable (Final verdict) := inferInstanceAs (Decidable (_ = _))

/-- The verdict on the front of a stream does not depend on how much of it has come, once it is final; until then it asks for
more than has come and nothing less decides. The verdict on a ClientHello is the same however the message is split into records. -/
theorem sniff_tls_segments :
    (∀ (b : List UInt8) (n m : Nat), n ≤ m → m ≤ b.length →
      (Final (sniffTLS (b.take n)) → sniffTLS (b.take m) = sniffTLS (b.take n)) ∧
      (∀ length, sniffTLS (b.take n) = .error (.needAtLeastData length) →
        n < length ∧ ∀ k, n ≤ k → k ≤ b.length → k < length → ¬Final (sniffTLS (b.take k)))) ∧
    (∀ (message : List UInt8) (pieces : List (UInt8 × List UInt8)), ClientHelloMessage message →
      (∀ piece ∈ pieces, 1 ≤ piece.2.length ∧ piece.2.length ≤ 2 ^ 14) →
      pieces.flatMap Prod.snd = message →
      sniffTLS (tlsRecords pieces) = readClientHello message) := by
  constructor
  · intro b n m le hw
    refine ⟨settles_sniffTLS.final le, fun length ha => ?_⟩
    have had : asks SniffError.needs (sniffTLS (b.take n)) = some length := by rw [ha]; rfl
    obtain ⟨more, -, hag⟩ := settles_sniffTLS.asking (Nat.le_trans le hw) had
    refine ⟨more, fun k found _ hb final => ?_⟩
    rw [Final, hag k found hb] at final
    cases final
  · intro _ pieces hwh hs hj
    have run := sniffRecords_pieces (readClientHello_final hwh) pieces [] [] (tlsRecords pieces).length hs hj
      (Option.some_ne_none 1) (Nat.le_refl _)
    rwa [nil_append] at run

def smallHello : List UInt8 :=
  [1, 0, 0, 53, 3, 3] ++ List.replicate 32 0 ++ [0, 0, 2, 0x13, 1, 1, 0, 0, 10, 0, 0, 0, 6, 0, 4, 0, 0, 1, 97]

def smallPieces : List (UInt8 × List UInt8) := [(1, smallHello.take 3), (3, (smallHello.drop 3).take 50), (3, smallHello.drop 53)]

theorem sniff_tls_segments_small :
    sniffTLS (tlsRecords smallPieces) = .ok [97] ∧
    sniffTLS ((tlsRecords smallPieces).take 7) = .error (.needAtLeastData 8) ∧
    ¬Final (sniffTLS ((tlsRecords smallPieces).take 7)) ∧
    sniffTLS ((tlsRecords smallPieces ++ [22, 3]).take 74) = sniffTLS ((tlsRecords smallPieces ++ [22, 3]).take 72) := by
  have ha : sniffTLS ((tlsRecords smallPieces).take 7) = .error (.needAtLeastData 8) := by decide +kernel
  have hf := sniff_tls_segments.1 (tlsRecords smallPieces) 7 7 (by decide) (by decide +kernel)
  have hl := sniff_tls_segments.1 (tlsRecords smallPieces ++ [22, 3]) 72 74 (by decide) (by decide +kernel)
  refine ⟨?_, ha, (hf.2 8 ha).2 7 (by decide) (by decide +kernel) (by decide), hl.1 (by decide +kernel)⟩
  rw [sniff_tls_segments.2 smallHello smallPieces ⟨by decide, by decide, by decide⟩ (by decide +kernel) (by decide)]
  decide +kernel

end AsterCore.Sniffer
