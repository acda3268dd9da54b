import AsterCore.GoBinary
import AsterCore.CidrSet

namespace AsterCore.Cidr

open Intervals GoBinary IpCidrSet IPRange

def maxBinaryIPRanges : Nat := 2 ^ 20

def as16Bytes (ip : Addr) : List UInt8 := bigEndian 16 (as16 ip).toNat

def addrFrom16 (b : List UInt8) : Addr := .v6 (BitVec.ofNat 128 (fromBigEndian b)) ""

namespace IpCidrSet

def rangeCount (set : IpCidrSet) : Nat := if set.merged then set.v4From.length + set.v6From.length else set.rr.length

def v4Row (start stop : BitVec 32) : List UInt8 :=
  List.replicate 10 0 ++ bigEndian 2 0xffff ++ bigEndian 4 start.toNat ++
    (List.replicate 10 0 ++ bigEndian 2 0xffff ++ bigEndian 4 stop.toNat)

def v6Row (start stop : V6Addr) : List UInt8 :=
  putUint64 start.hi ++ putUint64 start.lo ++ (putUint64 stop.hi ++ putUint64 stop.lo)

def row (r : IPRange) : List UInt8 := as16Bytes r.start ++ as16Bytes r.stop

def rows (set : IpCidrSet) : List UInt8 :=
  if set.merged then (List.zipWith v4Row set.v4From set.v4To).flatten ++ (List.zipWith v6Row set.v6From set.v6To).flatten
  else set.rr.flatMap row

def writeBin {σ ε : Type} (write : σ → List UInt8 → Except ε σ) (set : IpCidrSet) (s : σ) : Except ε σ := do
  let s ← write s [1]
  let s ← write s (putUint64 (BitVec.ofNat 64 set.rangeCount))
  if set.rangeCount = 0 then return s
  write s set.rows

end IpCidrSet

def readRange (netipx : Netipx) (buf : List UInt8) (i : Nat) : IPRange :=
  netipx.ipRangeFrom (addrFrom16 ((buf.drop (i * 32)).take 16)).unmap (addrFrom16 ((buf.drop (i * 32 + 16)).take 16)).unmap

def readRanges (netipx : Netipx) (buf : List UInt8) : Nat → Nat → List IPRange → Except ReadError (List IPRange)
  | 0, _, rr => .ok rr
  | n + 1, i, rr => do
    let r := readRange netipx buf i
    failIf (netipx.isValid r = false) (.message ("IP range " ++ toString i ++ " is invalid"))
    readRanges netipx buf n (i + 1) (rr ++ [r])

/-- `ReadIpCidrSet` of the bytes that a reader gives, with what is left of them. -/
def readIpCidrSet (netipx : Netipx) (r : List UInt8) : Except ReadError (IpCidrSet × List UInt8) := do
  let (version, r) ← readFull 1 r
  failIf (version.head? ≠ some 1) (.message "version is invalid")
  let (hdr, r) ← readFull 8 r
  let length := (uint64 hdr).toInt
  failIf (length < 1) (.message "length is invalid")
  failIf (length > maxBinaryIPRanges)
    (.message ("IP range count " ++ toString length ++ " exceeds maximum " ++ toString maxBinaryIPRanges))
  let n := length.toNat
  let (buf, r) ← readFull (n * 32) r
  let rr ← readRanges netipx buf n 0 []
  match ({ rr } : IpCidrSet).merge netipx with
  | .ok set => pure (set, r)
  | .error e => .error (.message ("normalize IP ranges: " ++ e))

def is4In6 : Addr → Bool
  | .v6 bits _ => bits >>> 32 = 0xffff#128
  | _ => false

def reloadAddr (ip : Addr) : Addr := (Addr.v6 (as16 ip) "").unmap

def reload (r : IPRange) : IPRange := .between (reloadAddr r.start) (reloadAddr r.stop)

theorem addrFrom16_as16Bytes (ip : Addr) : addrFrom16 (as16Bytes ip) = .v6 (as16 ip) "" := by
  have hs := (as16 ip).isLt
  rw [addrFrom16, as16Bytes, fromBigEndian_bigEndian, Nat.mod_eq_of_lt (by exact hs)]
  simp

theorem length_row (r : IPRange) : (row r).length = 32 := by
  rw [row, List.length_append, as16Bytes, as16Bytes, length_bigEndian, length_bigEndian]

variable {netipx : Netipx} {r : IPRange}

theorem readRange_rows {ranges : List IPRange} {i : Nat} (hh : ranges[i]? = some r) :
    readRange netipx (ranges.flatMap row) i = reload r := by
  obtain ⟨_, eq⟩ := drop_flatMap length_row hh
  have hw : (as16Bytes r.start).length = 16 := length_bigEndian _ _
  have hw' : (as16Bytes r.stop).length = 16 := length_bigEndian _ _
  rw [readRange, ← List.drop_drop, eq, row, List.append_assoc, List.take_left' hw, List.drop_left' hw,
    List.take_left' hw', addrFrom16_as16Bytes, addrFrom16_as16Bytes]
  exact netipx.ipRangeFrom_eq _ _

theorem readRanges_ok {ranges : List IPRange} (n : Nat) {i : Nat} (bound : i + n = ranges.length) (rr result : List IPRange) :
    readRanges netipx (ranges.flatMap row) n i rr = .ok result ↔
      (∀ r ∈ ranges.drop i, (reload r).ordered = true) ∧ result = rr ++ (ranges.drop i).map reload := by
  induction n generalizing i rr with
  | zero =>
    rw [List.drop_eq_nil_of_le (by omega), List.map_nil, List.append_nil]
    constructor
    · intro eq
      cases eq
      exact ⟨by simp, rfl⟩
    · rintro ⟨_, rfl⟩
      rfl
  | succ _ ih =>
    have hh : ranges[i]? = some ranges[i] := List.getElem?_eq_getElem (by omega)
    have hs : ranges.drop i = ranges[i] :: ranges.drop (i + 1) := List.drop_eq_getElem_cons (by omega)
    rw [readRanges, failIf_bind, ih (by omega), readRange_rows hh, netipx.isValid_eq, hs, List.forall_mem_cons, List.map_cons, List.append_assoc,
      List.singleton_append, and_assoc, Bool.not_eq_false]

def IpCidrSet.ranges (netipx : Netipx) (set : IpCidrSet) : List IPRange := if set.merged then set.appendCompactTo netipx [] else set.rr

theorem toNat_as16_v4 (bits : BitVec 32) : (as16 (.v4 bits)).toNat = 0xffff * 2 ^ 32 + bits.toNat := by
  simp only [as16, BitVec.toNat_append, BitVec.toNat_ofNat]
  rw [← Nat.shiftLeft_add_eq_or_of_lt bits.isLt, Nat.shiftLeft_eq]

theorem v4Row_eq (a b : BitVec 32) : v4Row a b = row (.between (ipv4FromUint32 a) (ipv4FromUint32 b)) := by
  have hh : ∀ x : BitVec 32, as16Bytes (.v4 x) = List.replicate 10 0 ++ bigEndian 2 0xffff ++ bigEndian 4 x.toNat := by
    intro x
    have hv : (as16 (.v4 x)).toNat = 0xffff * 256 ^ 4 + x.toNat := toNat_as16_v4 x
    have high : (0xffff * 256 ^ 4 + x.toNat) / 256 ^ 4 = 0xffff := by omega
    have hz : bigEndian 10 (0xffff / 256 ^ 2) = List.replicate 10 0 := rfl
    have low : bigEndian 4 (0xffff * 256 ^ 4 + x.toNat) = bigEndian 4 x.toNat := bigEndian_congr (by omega)
    rw [as16Bytes, hv, show (16 : Nat) = 10 + 2 + 4 from rfl, bigEndian_add, bigEndian_add, high, hz, low]
  rw [v4Row]
  exact congrArg₂ _ (hh a).symm (hh b).symm

theorem v6Row_eq (a b : V6Addr) : v6Row a b = row (.between (v6ToIP a) (v6ToIP b)) := by
  have hh : ∀ x : V6Addr, as16Bytes (v6ToIP x) = putUint64 x.hi ++ putUint64 x.lo := by
    intro x
    have hs := x.lo.isLt
    have hv : (as16 (v6ToIP x)).toNat = x.hi.toNat * 256 ^ 8 + x.lo.toNat := by
      simp only [as16, v6ToIP, BitVec.toNat_append]
      rw [← Nat.shiftLeft_add_eq_or_of_lt hs]
      omega
    have high : (x.hi.toNat * 256 ^ 8 + x.lo.toNat) / 256 ^ 8 = x.hi.toNat := by omega
    have low : bigEndian 8 (x.hi.toNat * 256 ^ 8 + x.lo.toNat) = bigEndian 8 x.lo.toNat := bigEndian_congr (by omega)
    rw [as16Bytes, hv, show (16 : Nat) = 8 + 8 from rfl, bigEndian_add, high, low, putUint64_eq, putUint64_eq]
  rw [v6Row]
  exact congrArg₂ _ (hh a).symm (hh b).symm

theorem flatten_zipWith {β : Type} {f : β → β → List UInt8} {g : β → β → IPRange} (hs : ∀ a b, f a b = row (g a b))
    (starts stops : List β) : (List.zipWith f starts stops).flatten = (List.zipWith g starts stops).flatMap row := by
  induction starts generalizing stops with
  | nil => rfl
  | cons _ _ ih =>
    cases stops with
    | nil => rfl
    | cons =>
      rw [List.zipWith_cons_cons, List.zipWith_cons_cons, List.flatten_cons, List.flatMap_cons, hs, ih]

theorem rows_eq (set : IpCidrSet) : set.rows = (set.ranges netipx).flatMap row := by
  unfold rows ranges
  split
  · simp only [appendCompactTo, netipx.ipRangeFrom_eq]
    rw [List.nil_append, List.flatMap_append, flatten_zipWith v4Row_eq, flatten_zipWith v6Row_eq]
  · rfl

variable {set : IpCidrSet}

theorem Stands.ranges {content : Addr → Prop} (h : Stands set content) :
    (∀ r ∈ set.ranges netipx, r.ordered = true) ∧ set.rangeCount = (set.ranges netipx).length ∧
      ∀ ip, content ip ↔ ∃ r ∈ set.ranges netipx, r.covers ip = true := by
  obtain ⟨ranges, hv, hf, hs⟩ := h.form
  cases hf with
  | listed hu eq =>
    have hl : set.ranges netipx = ranges := by rw [IpCidrSet.ranges, hu, ← eq]; rfl
    rw [hl, rangeCount, hu]
    exact ⟨hv, congrArg List.length eq, hs⟩
  | compact hm _ eq =>
    have hl : set.ranges netipx = set.appendCompactTo netipx [] := by rw [IpCidrSet.ranges, hm]; rfl
    obtain ⟨hv', hc⟩ := appendCompactTo_covers hv eq
    rw [hl]
    refine ⟨hv', ?_, fun ip => (hs ip).trans (hc ip).symm⟩
    have v4 : set.v4From.length = (v4Ranges ranges).length := by rw [eq]; exact List.length_map _
    have v6 : set.v6From.length = (v6Ranges ranges).length := by rw [eq]; exact List.length_map _
    rw [appendCompactTo_eq hv eq, rangeCount, hm, List.length_map, List.length_append, v4, v6]
    rfl

theorem is4In6_iff (bits : BitVec 128) (zone : String) : is4In6 (.v6 bits zone) = true ↔ bits.toNat / 2 ^ 32 = 0xffff := by
  rw [is4In6, decide_eq_true_eq, ← BitVec.toNat_inj, BitVec.toNat_ushiftRight, Nat.shiftRight_eq_div_pow]
  rfl

theorem reloadAddr_v4 (bits : BitVec 32) : reloadAddr (.v4 bits) = .v4 bits := by
  have value := toNat_as16_v4 bits
  have hm : as16 (.v4 bits) >>> 32 = 0xffff#128 := by
    rw [← BitVec.toNat_inj, BitVec.toNat_ushiftRight]
    show _ = 0xffff
    omega
  have low : (as16 (.v4 bits)).setWidth 32 = bits := by
    rw [← BitVec.toNat_inj, BitVec.toNat_setWidth]
    omega
  rw [reloadAddr, Addr.unmap, if_pos hm, low]

theorem reloadAddr_v6 (bits : BitVec 128) (zone : String) :
    reloadAddr (.v6 bits zone) = if is4In6 (.v6 bits zone) then .v4 (bits.setWidth 32) else .v6 bits "" := by
  by_cases hm : bits >>> 32 = 0xffff#128
  · simp [reloadAddr, as16, Addr.unmap, is4In6, hm]
  · simp [reloadAddr, as16, Addr.unmap, is4In6, hm]

theorem reload_plain (hv : r.ordered = true) (hs : is4In6 r.start = false) (stop : is4In6 r.stop = false) :
    (reload r).ordered = true ∧ ∀ ip, (reload r).covers ip = r.covers ip := by
  have same : reload r = .between r.start r.stop := by
    rcases r.ordered_iff.mp hv with ⟨a, b, rfl, _⟩ | ⟨a, b, zone, rfl, _⟩
    · rw [reload, reloadAddr_v4, reloadAddr_v4]
    · rw [reload, reloadAddr_v6, reloadAddr_v6, hs, stop]
      rfl
  rw [same]
  exact between_valid hv

theorem reload_mixed (hv : r.ordered = true) (hm : is4In6 r.start ≠ is4In6 r.stop) : (reload r).ordered = false := by
  rcases r.ordered_iff.mp hv with ⟨a, b, rfl, _⟩ | ⟨a, b, zone, rfl, _⟩
  · exact absurd rfl hm
  · rw [reload, reloadAddr_v6, reloadAddr_v6]
    cases hf : is4In6 (.v6 a zone) with
    | true =>
      cases hs : is4In6 (.v6 b zone) with
      | true => exact absurd (hf.trans hs.symm) hm
      | false => rfl
    | false =>
      cases hs : is4In6 (.v6 b zone) with
      | true => rfl
      | false => exact absurd (hf.trans hs.symm) hm

theorem reload_mapped (hv : r.ordered = true) (hs : is4In6 r.start = true) (stop : is4In6 r.stop = true) :
    (reload r).ordered = true ∧
      (∀ ip, r.covers ip = true → is4In6 ip = true ∧ (reload r).covers ip.unmap = true) ∧
      ∀ ip, (reload r).covers ip = true → ∃ x, x.unmap = ip ∧ r.covers x = true := by
  rcases r.ordered_iff.mp hv with ⟨a, b, rfl, _⟩ | ⟨a, b, zone, rfl, le⟩
  · cases hs
  · have low := (is4In6_iff a zone).mp hs
    have high := (is4In6_iff b zone).mp stop
    have hsh : reload ⟨.v6 a zone, .v6 b zone⟩ = ⟨.v4 (a.setWidth 32), .v4 (b.setWidth 32)⟩ := by
      rw [reload, reloadAddr_v6, reloadAddr_v6, hs, stop]
      rfl
    have order : a.toNat ≤ b.toNat := le
    have hk : (⟨.v4 (a.setWidth 32), .v4 (b.setWidth 32)⟩ : IPRange).ordered = true := by
      simp only [ordered, decide_eq_true_eq, BitVec.le_def, BitVec.toNat_setWidth]
      omega
    rw [hsh]
    refine ⟨hk, fun ip hi => ?_, fun ip hi => ?_⟩
    · obtain ⟨_, ha, hb⟩ := (covers_iff hv ip).mp hi
      cases ip with
      | invalid =>
        simp only [Addr.order] at ha
        omega
      | v4 =>
        simp only [Addr.order] at ha
        omega
      | v6 x zone' =>
        simp only [Addr.order] at ha hb
        have hm := (is4In6_iff x zone').mpr (by omega)
        have hu : (Addr.v6 x zone').unmap = .v4 (x.setWidth 32) := by
          rw [Addr.unmap, if_pos (by simpa [is4In6] using hm)]
        refine ⟨hm, ?_⟩
        rw [hu, covers_iff hk]
        refine ⟨rfl, ?_, ?_⟩
        · simp only [Addr.order, BitVec.toNat_setWidth]
          omega
        · simp only [Addr.order, BitVec.toNat_setWidth]
          omega
    · obtain ⟨_, ha, hb⟩ := (covers_iff hk ip).mp hi
      cases ip with
      | invalid =>
        simp only [Addr.order] at ha
        omega
      | v6 =>
        simp only [Addr.order] at hb
        omega
      | v4 x =>
        refine ⟨.v6 (as16 (.v4 x)) "", reloadAddr_v4 x, ?_⟩
        have hva := toNat_as16_v4 x
        simp only [Addr.order, BitVec.toNat_setWidth] at ha hb
        rw [covers_iff hv]
        refine ⟨rfl, ?_, ?_⟩
        · simp only [Addr.order]
          omega
        · simp only [Addr.order]
          omega

theorem writeBin_buffer (hs : set.rangeCount ≠ 0) :
    set.writeBin bufferWrite [] =
      .ok ([1] ++ (putUint64 (BitVec.ofNat 64 set.rangeCount) ++ set.rows)) := by
  unfold writeBin
  simp [bufferWrite, bind, Except.bind, hs]

theorem readIpCidrSet_ok {ranges : List IPRange} (some : 1 ≤ ranges.length)
    (few : ranges.length ≤ maxBinaryIPRanges) (rest : List UInt8) (result : IpCidrSet × List UInt8) :
    readIpCidrSet netipx
    ([1] ++ (putUint64 (BitVec.ofNat 64 ranges.length) ++ (ranges.flatMap row ++ rest))) = .ok result ↔
      (∀ r ∈ ranges, (reload r).ordered = true) ∧
        ∃ set, ({ rr := ranges.map reload } : IpCidrSet).merge netipx = .ok set ∧ result = (set, rest) := by
  have few' : ranges.length ≤ 1048576 := few
  have hl := length_flatMap_chunks length_row ranges
  have hh : (uint64 (putUint64 (BitVec.ofNat 64 ranges.length))).toInt = ranges.length := by
    rw [uint64_putUint64, toInt_ofNat_small (by omega)]
  have hm : ∀ {rr : List IPRange}, (match ({ rr } : IpCidrSet).merge netipx with
      | .ok set => (pure (set, rest) : Except ReadError (IpCidrSet × List UInt8))
      | .error e => .error (.message ("normalize IP ranges: " ++ e))) = .ok result ↔
        ∃ set, ({ rr } : IpCidrSet).merge netipx = .ok set ∧ result = (set, rest) := by
    intro rr
    cases ({ rr } : IpCidrSet).merge netipx with
    | error => simp
    | ok => simp [pure, Except.pure, eq_comm]
  have loop := @readRanges_ok netipx ranges ranges.length 0 (Nat.zero_add _) []
  constructor
  · intro hr
    obtain ⟨_, hfi, hr⟩ := bind_ok.mp hr
    rw [readFull_append (n := 1) (p := [1]) rfl] at hfi
    cases hfi
    obtain ⟨_, hr⟩ := failIf_bind.mp hr
    obtain ⟨_, hs, hr⟩ := bind_ok.mp hr
    rw [readFull_append (length_putUint64 _)] at hs
    cases hs
    obtain ⟨_, hr⟩ := failIf_bind.mp hr
    obtain ⟨_, hr⟩ := failIf_bind.mp hr
    rw [hh, Int.toNat_natCast] at hr
    obtain ⟨_, ht, hr⟩ := bind_ok.mp hr
    rw [readFull_append hl] at ht
    cases ht
    obtain ⟨rr, hf, hr⟩ := bind_ok.mp hr
    obtain ⟨hv, rfl⟩ := (loop rr).mp hf
    exact ⟨hv, hm.mp hr⟩
  · rintro ⟨hv, hd⟩
    refine bind_ok.mpr ⟨_, readFull_append (n := 1) (p := [1]) rfl _, failIf_bind.mpr ⟨by simp, ?_⟩⟩
    refine bind_ok.mpr ⟨_, readFull_append (length_putUint64 _) _, ?_⟩
    dsimp only
    rw [hh]
    refine failIf_bind.mpr ⟨by omega, failIf_bind.mpr ⟨by simp only [maxBinaryIPRanges]; omega, ?_⟩⟩
    refine bind_ok.mpr ⟨_, readFull_append hl _, bind_ok.mpr ⟨_, (loop _).mpr ⟨hv, rfl⟩, hm.mpr hd⟩⟩

/-- Each range with a mapped bound lies in the mapped block, other ranges have its addresses, and IPv4
ranges have the IPv4 addresses. -/
def Unambiguous (ranges : List IPRange) : Prop :=
  ∀ r ∈ ranges, is4In6 r.start = true ∨ is4In6 r.stop = true →
    (is4In6 r.start = true ∧ is4In6 r.stop = true) ∧
      ∀ x, r.covers x = true →
        (∃ q ∈ ranges, is4In6 q.start = false ∧ is4In6 q.stop = false ∧ q.covers x = true) ∧
          ∃ q ∈ ranges, q.covers x.unmap = true

theorem is4In6_unmap (ip : Addr) : is4In6 ip.unmap = false := by
  cases ip with
  | invalid | v4 bits => rfl
  | v6 bits =>
    by_cases hm : bits >>> 32 = 0xffff#128
    · rw [Addr.unmap, if_pos hm]
      rfl
    · rw [Addr.unmap]
      simp [is4In6, hm]

theorem reload_same_iff {ranges : List IPRange} (hv : ∀ r ∈ ranges, r.ordered = true) :
    ((∀ r ∈ ranges, (reload r).ordered = true) ∧
        ∀ ip, (∃ r ∈ ranges.map reload, r.covers ip = true) ↔ ∃ r ∈ ranges, r.covers ip = true) ↔ Unambiguous ranges := by
  constructor
  · rintro ⟨hr, same⟩ r mem hm
    have ha : ∀ q ∈ ranges, is4In6 q.start = is4In6 q.stop := by
      intro q ht
      by_contra hmi
      have hbr := reload_mixed (hv q ht) hmi
      rw [hr q ht] at hbr
      cases hbr
    have hb : is4In6 r.start = true ∧ is4In6 r.stop = true := by
      have eq := ha r mem
      rcases hm with hs | stop
      · exact ⟨hs, eq ▸ hs⟩
      · exact ⟨eq ▸ stop, stop⟩
    obtain ⟨_, hu, _⟩ := reload_mapped (hv r mem) hb.1 hb.2
    refine ⟨hb, fun x hi => ?_⟩
    obtain ⟨hm, hmo⟩ := hu x hi
    refine ⟨?_, (same x.unmap).mp ⟨_, List.mem_map_of_mem mem, hmo⟩⟩
    obtain ⟨_, ht, hi'⟩ := (same x).mpr ⟨r, mem, hi⟩
    obtain ⟨q, old, rfl⟩ := List.mem_map.mp ht
    cases hs : is4In6 q.start with
    | false =>
      have stop := ha q old ▸ hs
      exact ⟨q, old, hs, stop, (reload_plain (hv q old) hs stop).2 x ▸ hi'⟩
    | true =>
      -- A reloaded mapped range has IPv4 addresses only.
      have stop := ha q old ▸ hs
      obtain ⟨y, rfl, _⟩ := (reload_mapped (hv q old) hs stop).2.2 x hi'
      rw [is4In6_unmap] at hm
      cases hm
  · intro hc
    have hk : ∀ r ∈ ranges, (is4In6 r.start = false ∧ is4In6 r.stop = false) ∨ is4In6 r.start = true ∨ is4In6 r.stop = true := by
      intro r _
      cases is4In6 r.start <;> cases is4In6 r.stop <;> simp
    refine ⟨fun r mem => ?_, fun ip => ⟨?_, ?_⟩⟩
    · rcases hk r mem with hp | hm
      · exact (reload_plain (hv r mem) hp.1 hp.2).1
      · obtain ⟨hb, _⟩ := hc r mem hm
        exact (reload_mapped (hv r mem) hb.1 hb.2).1
    · rintro ⟨_, ht, hi⟩
      obtain ⟨r, mem, rfl⟩ := List.mem_map.mp ht
      rcases hk r mem with hp | hm
      · exact ⟨r, mem, (reload_plain (hv r mem) hp.1 hp.2).2 ip ▸ hi⟩
      · obtain ⟨hb, ho⟩ := hc r mem hm
        obtain ⟨x, rfl, old⟩ := (reload_mapped (hv r mem) hb.1 hb.2).2.2 ip hi
        exact (ho x old).2
    · rintro ⟨r, mem, hi⟩
      rcases hk r mem with hp | hm
      · exact ⟨_, List.mem_map_of_mem mem, ((reload_plain (hv r mem) hp.1 hp.2).2 ip).symm ▸ hi⟩
      · obtain ⟨q, old, hs, stop, hi'⟩ := ((hc r mem hm).2 ip hi).1
        exact ⟨_, List.mem_map_of_mem old, ((reload_plain (hv q old) hs stop).2 ip).symm ▸ hi'⟩

theorem isContain_same_iff {set' : IpCidrSet} {ranges ranges' : List IPRange}
    (hs : Stands set fun ip => ∃ r ∈ ranges, r.covers ip = true)
    (hs' : Stands set' fun ip => ∃ r ∈ ranges', r.covers ip = true) :
    (∀ ip, isContain netipx (some set') ip = isContain netipx (some set) ip) ↔
      ∀ ip, (∃ r ∈ ranges', r.covers ip = true) ↔ ∃ r ∈ ranges, r.covers ip = true := by
  have ha : ∀ ip, isContain netipx (some set') ip = isContain netipx (some set) ip ↔
      ((∃ r ∈ ranges', r.covers ip.withoutZone = true) ↔ ∃ r ∈ ranges, r.covers ip.withoutZone = true) := by
    intro ip
    obtain ⟨b, hf, iff⟩ := hs.isContain ip
    obtain ⟨_, hf', iff'⟩ := hs'.isContain ip
    rw [hf, hf', Option.some_inj, Bool.eq_iff_iff, iff, iff']
  constructor
  · intro same ip
    by_cases hz : ip.zone = ""
    · have hp : ip.withoutZone = ip := by
        cases ip with
        | v6 => exact congrArg _ hz.symm
        | _ => rfl
      exact hp ▸ (ha ip).mp (same ip)
    · have ho : ∀ r : IPRange, r.covers ip = false := by simp [IPRange.covers, hz]
      simp [ho]
  · exact fun same ip => (ha ip).mpr (same ip.withoutZone)

/-- What is written is read as a set with the same addresses exactly when no bound of its ranges is misread. -/
theorem writeBin_readIpCidrSet_iff (netipx : Netipx) (prefixString : Prefix → String) (ops : List Op) (set : IpCidrSet)
    (built : set = run netipx prefixString {} ops) (nonempty : IpCidrSet.isEmpty (some set) = false)
    (few : set.rangeCount ≤ maxBinaryIPRanges) : (∃ bytes, set.writeBin bufferWrite [] = .ok bytes ∧
        ∃ set', readIpCidrSet netipx bytes = .ok (set', []) ∧
          ∀ ip, IpCidrSet.isContain netipx (some set') ip = IpCidrSet.isContain netipx (some set) ip) ↔ Unambiguous (set.ranges netipx) := by
  have hs := stands_new.run netipx prefixString ops
  rw [← built] at hs
  obtain ⟨hv, hc, hco⟩ := hs.ranges
  have hs' : Stands set fun ip => ∃ r ∈ set.ranges netipx, r.covers ip = true := by
    obtain ⟨ranges, hv', form, same⟩ := hs.form
    exact ⟨ranges, hv', form, fun ip => (hco ip).symm.trans (same ip)⟩
  have some : set.rangeCount ≠ 0 := by
    intro hz
    unfold isEmpty at nonempty
    unfold rangeCount at hz
    split at hz
    · next hm => simp [hm, hz] at nonempty
    · next hu => simp [hu, hz] at nonempty
  have written := writeBin_buffer some
  have hp : 1 ≤ (set.ranges netipx).length := by omega
  have read := @readIpCidrSet_ok netipx _ hp (hc ▸ few) []
  rw [List.append_nil, ← rows_eq, ← hc] at read
  have hm : (∀ r ∈ set.ranges netipx, (reload r).ordered = true) →
      ∃ set', ({ rr := (set.ranges netipx).map reload } : IpCidrSet).merge netipx = .ok set' ∧
        Stands set' fun ip => ∃ r ∈ (set.ranges netipx).map reload, r.covers ip = true := by
    intro hr
    have hl : Stands { rr := (set.ranges netipx).map reload } fun ip => ∃ r ∈ (set.ranges netipx).map reload, r.covers ip = true :=
      ⟨_, by simpa using hr, .listed rfl rfl, fun _ => Iff.rfl⟩
    obtain ⟨set', done, _, stands⟩ := hl.merge netipx
    exact ⟨set', done, stands⟩
  rw [← reload_same_iff hv]
  constructor
  · rintro ⟨_, eq, _, hf, same⟩
    rw [written] at eq
    cases eq
    obtain ⟨hr, _, hd, pair⟩ := (read _).mp hf
    cases pair
    obtain ⟨_, hd', hre⟩ := hm hr
    rw [hd] at hd'
    cases hd'
    exact ⟨hr, (isContain_same_iff hs' hre).mp same⟩
  · rintro ⟨hr, same⟩
    obtain ⟨set', hd, hre⟩ := hm hr
    exact ⟨_, written, set', (read _).mpr ⟨hr, set', hd, rfl⟩, (isContain_same_iff hs' hre).mpr same⟩

/-- One prefix, `10.0.0.0/8`. -/
theorem writeBin_readIpCidrSet_iff_sample :
    ∃ set, set = run .plain (fun _ => "") {} [.add ⟨.v4 0x0a000000#32, 8⟩, .merge] ∧
      ∃ bytes, set.writeBin bufferWrite [] = .ok bytes ∧
        ∃ set', readIpCidrSet .plain bytes = .ok (set', []) ∧
          ∀ ip, IpCidrSet.isContain .plain (some set') ip = IpCidrSet.isContain .plain (some set) ip := by
  refine ⟨_, rfl, (writeBin_readIpCidrSet_iff .plain (fun _ => "") _ _ rfl (by decide +kernel) (by decide +kernel)).mpr ?_⟩
  have hl : (run .plain (fun _ => "") {} [.add ⟨.v4 0x0a000000#32, 8⟩, .merge]).ranges .plain =
      [⟨.v4 0x0a000000#32, .v4 0x0affffff#32⟩] := by decide +kernel
  rw [hl]
  intro r mem hm
  cases List.mem_singleton.mp mem
  simp [is4In6] at hm

/-- `::ffff:1.2.3.0/120` is read as `1.2.3.0/24`, and `::/80` is not read at all. -/
theorem writeBin_readIpCidrSet_mapped :
    ∃ set, set = run .plain (fun _ => "") {} [.add ⟨.v6 0xffff01020300#128 "", 120⟩] ∧
      set.rangeCount = 1 ∧
      (∃ bytes set', set.writeBin bufferWrite [] = .ok bytes ∧ readIpCidrSet .plain bytes = .ok (set', []) ∧
        IpCidrSet.isContain .plain (some set) (.v6 0xffff01020304#128 "") = some true ∧
        IpCidrSet.isContain .plain (some set') (.v6 0xffff01020304#128 "") = some false ∧
        IpCidrSet.isContain .plain (some set) (.v4 0x01020304#32) = some false ∧
        IpCidrSet.isContain .plain (some set') (.v4 0x01020304#32) = some true) ∧
      ∃ bytes, (run .plain (fun _ => "") {} [.add ⟨.v6 0#128 "", 80⟩]).writeBin bufferWrite [] = .ok bytes ∧
        readIpCidrSet .plain bytes = .error (.message "IP range 0 is invalid") := by
  refine ⟨_, rfl, by decide +kernel, ⟨_, _, rfl, by rfl, ?_⟩, _, rfl, by rfl⟩
  decide +kernel

end AsterCore.Cidr
