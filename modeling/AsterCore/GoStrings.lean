import Mathlib.Data.BitVec

namespace AsterCore

inductive Addr
  | invalid
  | v4 (bits : BitVec 32)
  | v6 (bits : BitVec 128) (zone : String)
  deriving DecidableEq

structure Prefix where
  addr : Addr
  bits : Nat
  deriving DecidableEq

def Addr.isValid : Addr → Bool
  | .invalid => false
  | _ => true

/-- `Addr.Unmap`: an IPv4 address mapped into IPv6 becomes that IPv4 address. -/
def Addr.unmap : Addr → Addr
  | .v6 bits zone =>
    if bits >>> 32 = 0xffff#128 then .v4 (bits.setWidth 32) else .v6 bits zone
  | addr => addr

/-- `Prefix.Contains`: families never mix and an address with a zone is in no prefix. -/
def Prefix.contains (p : Prefix) (ip : Addr) : Bool :=
  match p.addr, ip with
  | .v4 net, .v4 addr => p.bits ≤ 32 && (addr ^^^ net) >>> (32 - p.bits) == 0
  | .v6 net _, .v6 addr zone => zone == "" && p.bits ≤ 128 && (addr ^^^ net) >>> (128 - p.bits) == 0
  | _, _ => false

/-- `Prefix.Masked`: the host bits and the zone are cleared. -/
def Prefix.masked (p : Prefix) : Prefix :=
  match p.addr with
  | .invalid => ⟨.invalid, 0⟩
  | .v4 net => if p.bits ≤ 32 then ⟨.v4 (net >>> (32 - p.bits) <<< (32 - p.bits)), p.bits⟩ else ⟨.invalid, 0⟩
  | .v6 net _ => if p.bits ≤ 128 then ⟨.v6 (net >>> (128 - p.bits) <<< (128 - p.bits)) "", p.bits⟩ else ⟨.invalid, 0⟩

/-- The standard-library functions that rest on large tables or on hashing. Nothing is
assumed about them. -/
structure Stdlib where
  /-- `strings.ToLower`. -/
  toLower : String → String
  /-- `strings.ToUpper`. -/
  toUpper : String → String
  /-- `hex.EncodeToString` of the SHA-256 sum of the text. -/
  sha256Hex : String → String
  /-- `time.Duration.String`. -/
  durationString : Int → String
  /-- `netip.ParsePrefix`, with the text of its error. -/
  parsePrefix : String → Except String Prefix
  /-- `netip.Prefix.String`. -/
  prefixString : Prefix → String
  /-- The `%q` verb. -/
  quote : String → String
  /-- `filepath.Clean`. -/
  cleanPath : String → String

/-- The library on ASCII text and clean paths, with a given digest and no addresses. -/
def asciiStdlib (sha256Hex : String → String) (durationString : Int → String) : Stdlib where
  toLower s := String.ofList (s.toList.map Char.toLower)
  toUpper s := String.ofList (s.toList.map Char.toUpper)
  sha256Hex := sha256Hex
  durationString := durationString
  parsePrefix _ := .error "netip.ParsePrefix: no '/'"
  prefixString _ := "invalid Prefix"
  quote s := "\"" ++ s ++ "\""
  cleanPath s := s

def isSpace (c : Char) : Bool :=
  c.toNat ∈ [9, 10, 11, 12, 13, 32, 0x85, 0xa0, 0x1680, 0x2028, 0x2029, 0x202f, 0x205f, 0x3000] ||
    (0x2000 ≤ c.toNat && c.toNat ≤ 0x200a)

def trimSpaceList (cs : List Char) : List Char :=
  ((cs.dropWhile isSpace).reverse.dropWhile isSpace).reverse

def trimSpace (s : String) : String := String.ofList (trimSpaceList s.toList)

/-- `strings.Fields`: the maximal runs of characters that are not space. -/
def fields (s : String) : List String :=
  ((s.toList.splitOnP isSpace).filter (fun field => !field.isEmpty)).map String.ofList

def joinWith (sep : String) : List String → String
  | [] => ""
  | [s] => s
  | s :: rest => s ++ sep ++ joinWith sep rest

def decimalValue (digits : List Char) : Nat :=
  digits.foldl (fun n c => 10 * n + (c.toNat - '0'.toNat)) 0

theorem ite_error_eq_ok {ε α : Type} {bad : Prop} [Decidable bad] {e : ε} {x : Except ε α} {a : α} :
    (if bad then .error e else x) = .ok a ↔ ¬bad ∧ x = .ok a := by
  split
  next h => simp [h]
  next h => simp [h]

end AsterCore
