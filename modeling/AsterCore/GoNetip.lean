import AsterCore.GoBinary
import AsterCore.GoStrings
import AsterCore.Intervals

namespace AsterCore

open Intervals GoBinary List Addr Prefix

def Addr.zone : Addr → String
  | .v6 _ zone => zone
  | _ => ""

def Addr.withoutZone : Addr → Addr
  | .v6 bits _ => .v6 bits ""
  | addr => addr

def Addr.is4 : Addr → Bool
  | .v4 _ => true
  | _ => false

def Addr.is6 : Addr → Bool
  | .v6 _ _ => true
  | _ => false

/-- The place of an address without zone in the order of `Compare`: the invalid one, IPv4, IPv6. -/
def Addr.order : Addr → Nat
  | .invalid => 0
  | .v4 bits => 1 + bits.toNat
  | .v6 bits _ => 1 + 2 ^ 32 + bits.toNat

def Addr.ofOrder (n : Nat) : Addr :=
  if n = 0 then .invalid else if n < 1 + 2 ^ 32 then .v4 (BitVec.ofNat 32 (n - 1)) else .v6 (BitVec.ofNat 128 (n - 1 - 2 ^ 32)) ""

def Addr.less (a b : Addr) : Bool := a.order < b.order || (a.order = b.order && a.zone < b.zone)

/-- `Addr.Next`; the zero value stands for an overflow. -/
def Addr.next : Addr → Addr
  | .invalid => .invalid
  | .v4 bits => if bits + 1 = 0 then .invalid else .v4 (bits + 1)
  | .v6 bits zone => if bits + 1 = 0 then .invalid else .v6 (bits + 1) zone

def Addr.prev : Addr → Addr
  | .invalid => .invalid
  | .v4 bits => if bits = 0 then .invalid else .v4 (bits - 1)
  | .v6 bits zone => if bits = 0 then .invalid else .v6 (bits - 1) zone

def Prefix.isValid (p : Prefix) : Bool :=
  match p.addr with
  | .invalid => false
  | .v4 _ => p.bits ≤ 32
  | .v6 _ _ => p.bits ≤ 128

def Addr.asSlice : Addr → List UInt8
  | .invalid => []
  | .v4 bits => bigEndian 4 bits.toNat
  | .v6 bits _ => bigEndian 16 bits.toNat

def addrFromSlice (slice : List UInt8) : Option Addr :=
  if slice.length = 4 then some (.v4 (BitVec.ofNat 32 (fromBigEndian slice)))
  else if slice.length = 16 then some (.v6 (BitVec.ofNat 128 (fromBigEndian slice)) "")
  else none

/-- `netipx.IPRange`, by `From` and `To`. -/
structure IPRange where
  start : Addr
  stop : Addr
  deriving DecidableEq

def IPRange.between (start stop : Addr) : IPRange := ⟨start.withoutZone, stop.withoutZone⟩

/-- The bounds are of one family and in order. -/
def IPRange.ordered (r : IPRange) : Bool :=
  match r.start, r.stop with
  | .v4 a, .v4 b => a ≤ b
  | .v6 a zone, .v6 b zone' => zone = zone' ∧ a ≤ b
  | _, _ => false

def IPRange.covers (r : IPRange) (ip : Addr) : Bool :=
  r.ordered && ip.zone = "" && r.start.order ≤ ip.order && ip.order ≤ r.stop.order

def IPRange.interval (r : IPRange) : Nat × Nat := (r.start.order, r.stop.order)

/-- The functions of `netipx`, with what its documentation says of them. The ranges of an `IPSet` that was built from valid
ones are valid, in order and apart, and have the same addresses. -/
structure Netipx where
  ipRangeFrom : Addr → Addr → IPRange
  isValid : IPRange → Bool
  contains : IPRange → Addr → Bool
  rangeOfPrefix : Prefix → IPRange
  prefixLastIP : Prefix → Addr
  ipSet : List IPRange → List IPRange
  ipRangeFrom_eq : ∀ a b, ipRangeFrom a b = .between a b
  isValid_eq : ∀ r, isValid r = r.ordered
  contains_eq : ∀ r ip, contains r ip = r.covers ip
  prefix_ordered : ∀ p, (rangeOfPrefix p).ordered = p.isValid
  prefix_covers : ∀ p ip, (rangeOfPrefix p).covers ip = p.contains ip
  last_ip : ∀ p, p.isValid = true →
    p.contains (prefixLastIP p) = true ∧ ∀ ip, p.contains ip = true → ip.order ≤ (prefixLastIP p).order
  set_ordered : ∀ rr, (∀ r ∈ rr, r.ordered = true) → ∀ r ∈ ipSet rr, r.ordered = true
  set_separated : ∀ rr, (∀ r ∈ rr, r.ordered = true) → Separated ((ipSet rr).map IPRange.interval)
  set_covers : ∀ rr, (∀ r ∈ rr, r.ordered = true) → ∀ ip, (∃ r ∈ ipSet rr, r.covers ip = true) ↔ ∃ r ∈ rr, r.covers ip = true

/-- The first and the last address of a prefix. -/
def prefixRange (p : Prefix) : IPRange :=
  let p := p.masked
  match p.addr with
  | .invalid => ⟨.invalid, .invalid⟩
  | .v4 net => .between (.v4 net) (.v4 (net ||| (BitVec.allOnes 32 >>> p.bits)))
  | .v6 net zone => .between (.v6 net zone) (.v6 (net ||| (BitVec.allOnes 128 >>> p.bits)) zone)

variable {w bits n : Nat} {r : IPRange} {rr : List IPRange} {a : Addr}

theorem between_iff (short : bits ≤ w) (net x : BitVec w) : (net >>> (w - bits) <<< (w - bits)).toNat ≤ x.toNat ∧
        x.toNat ≤ (net >>> (w - bits) <<< (w - bits) ||| (BitVec.allOnes w >>> bits)).toNat ↔
      (x ^^^ net) >>> (w - bits) = 0 := by
  generalize host : w - bits = h
  have hpo : 2 ^ w = 2 ^ bits * 2 ^ h := by rw [← Nat.pow_add]; congr 1; omega
  have hp : 0 < 2 ^ h := Nat.two_pow_pos h
  have hp' : 0 < 2 ^ bits := Nat.two_pow_pos bits
  have low : (net >>> h <<< h).toNat = net.toNat / 2 ^ h * 2 ^ h := by
    rw [BitVec.toNat_shiftLeft, BitVec.toNat_ushiftRight, Nat.shiftRight_eq_div_pow, Nat.shiftLeft_eq, Nat.mod_eq_of_lt]
    exact Nat.lt_of_le_of_lt (Nat.div_mul_le_self _ _) net.isLt
  have ho : (BitVec.allOnes w >>> bits).toNat = 2 ^ h - 1 := by
    rw [BitVec.toNat_ushiftRight, BitVec.toNat_allOnes, Nat.shiftRight_eq_div_pow, hpo]
    refine Nat.div_eq_of_lt_le ?_ ?_
    · rw [Nat.sub_mul, Nat.mul_comm]
      omega
    · rw [Nat.sub_add_cancel hp, Nat.mul_comm]
      exact Nat.sub_lt (Nat.mul_pos hp hp') Nat.one_pos
  have high : (net >>> h <<< h ||| (BitVec.allOnes w >>> bits)).toNat = net.toNat / 2 ^ h * 2 ^ h + (2 ^ h - 1) := by
    rw [BitVec.toNat_or, low, ho, ← Nat.shiftLeft_eq, Nat.shiftLeft_add_eq_or_of_lt (by omega)]
  have hs : (x ^^^ net) >>> h = 0 ↔ x.toNat / 2 ^ h = net.toNat / 2 ^ h := by
    show (x ^^^ net) >>> h = 0#w ↔ _
    rw [BitVec.ushiftRight_xor_distrib, BitVec.xor_eq_zero_iff, ← BitVec.toNat_inj, BitVec.toNat_ushiftRight, BitVec.toNat_ushiftRight,
      Nat.shiftRight_eq_div_pow, Nat.shiftRight_eq_div_pow]
  rw [low, hs]
  constructor
  · rintro ⟨ha, _⟩
    refine Nat.div_eq_of_lt_le ha ?_
    rw [Nat.add_mul]
    omega
  · intro same
    have ha := Nat.div_mul_le_self x.toNat (2 ^ h)
    have hb := Nat.lt_div_mul_add hp (a := x.toNat)
    rw [same] at ha hb
    omega

theorem IPRange.ordered_iff (r : IPRange) : r.ordered = true ↔
    (∃ a b, r = ⟨.v4 a, .v4 b⟩ ∧ a ≤ b) ∨ ∃ a b zone, r = ⟨.v6 a zone, .v6 b zone⟩ ∧ a ≤ b := by
  obtain ⟨start, stop⟩ := r
  cases start with
  | invalid => simp [IPRange.ordered]
  | v4 =>
    cases stop with
    | v4 b | _ => simp [IPRange.ordered]
  | v6 a zone =>
    cases stop with
    | v6 b =>
      simp only [IPRange.ordered, decide_eq_true_eq, IPRange.mk.injEq, v6.injEq, reduceCtorEq, false_and, exists_false, false_or]
      constructor
      · rintro ⟨rfl, le⟩
        exact ⟨a, b, zone, ⟨⟨rfl, rfl⟩, rfl, rfl⟩, le⟩
      · rintro ⟨_, _, _, ⟨⟨rfl, rfl⟩, rfl, rfl⟩, le⟩
        exact ⟨rfl, le⟩
    | _ => simp [IPRange.ordered]

theorem IPRange.order_le (hv : r.ordered = true) : r.start.order ≤ r.stop.order := by
  rcases r.ordered_iff.mp hv with ⟨a, b, rfl, le⟩ | ⟨a, b, zone, rfl, le⟩
  · exact Nat.add_le_add_left le 1
  · exact Nat.add_le_add_left le _

theorem IPRange.covers_iff (hv : r.ordered = true) (ip : Addr) :
    r.covers ip = true ↔ ip.zone = "" ∧ r.start.order ≤ ip.order ∧ ip.order ≤ r.stop.order := by
  simp [IPRange.covers, hv, and_assoc]

theorem prefix_bounds (hs : bits ≤ w) (net : BitVec w) :
    net >>> (w - bits) <<< (w - bits) ≤ net >>> (w - bits) <<< (w - bits) ||| (BitVec.allOnes w >>> bits) := by
  have own := (between_iff hs net net).mpr (by simp)
  exact Nat.le_trans own.1 own.2

theorem prefixRange_v4 {net : BitVec 32} (hs : bits ≤ 32) :
    prefixRange ⟨.v4 net, bits⟩ =
      ⟨.v4 (net >>> (32 - bits) <<< (32 - bits)), .v4 (net >>> (32 - bits) <<< (32 - bits) ||| (BitVec.allOnes 32 >>> bits))⟩ := by
  simp [prefixRange, masked, hs, IPRange.between, withoutZone]

theorem prefixRange_v6 {net : BitVec 128} {zone : String} (hs : bits ≤ 128) :
    prefixRange ⟨.v6 net zone, bits⟩ =
      ⟨.v6 (net >>> (128 - bits) <<< (128 - bits)) "",
        .v6 (net >>> (128 - bits) <<< (128 - bits) ||| (BitVec.allOnes 128 >>> bits)) ""⟩ := by
  simp [prefixRange, masked, hs, IPRange.between, withoutZone]

theorem prefixRange_ordered (p : Prefix) : (prefixRange p).ordered = p.isValid := by
  obtain ⟨addr, bits⟩ := p
  cases addr with
  | invalid => rfl
  | v4 net =>
    by_cases hs : bits ≤ 32
    · rw [prefixRange_v4 hs]
      simpa [IPRange.ordered, Prefix.isValid, hs] using prefix_bounds hs net
    · simp [prefixRange, masked, hs, IPRange.ordered, Prefix.isValid]
  | v6 net =>
    by_cases hs : bits ≤ 128
    · rw [prefixRange_v6 hs]
      simpa [IPRange.ordered, Prefix.isValid, hs] using prefix_bounds hs net
    · simp [prefixRange, masked, hs, IPRange.ordered, Prefix.isValid]

theorem prefixRange_covers (p : Prefix) (ip : Addr) : (prefixRange p).covers ip = p.contains ip := by
  by_cases hv : (prefixRange p).ordered = true
  · have hbo := IPRange.covers_iff hv ip
    rw [prefixRange_ordered] at hv
    obtain ⟨addr, _⟩ := p
    rw [Bool.eq_iff_iff, hbo]
    cases addr with
    | invalid => cases hv
    | v4 net =>
      replace hv := of_decide_eq_true hv
      rw [prefixRange_v4 hv]
      cases ip with
      | invalid => simp [Addr.order, Prefix.contains]
      | v4 x =>
        have hb := between_iff hv net x
        simp only [Addr.order, Addr.zone, Prefix.contains, Bool.and_eq_true, decide_eq_true_eq, beq_iff_eq, true_and, ← hb]
        constructor
        · rintro ⟨_, _⟩
          exact ⟨hv, by omega, by omega⟩
        · rintro ⟨_, _, _⟩
          exact ⟨by omega, by omega⟩
      | v6 =>
        simp only [Addr.order, Prefix.contains, Bool.false_eq_true, iff_false]
        omega
    | v6 net =>
      replace hv := of_decide_eq_true hv
      rw [prefixRange_v6 hv]
      cases ip with
      | invalid => simp [Addr.order, Prefix.contains]
      | v4 =>
        simp only [Addr.order, Prefix.contains, Bool.false_eq_true, iff_false]
        omega
      | v6 x =>
        have hb := between_iff hv net x
        simp only [Addr.order, Prefix.contains, Bool.and_eq_true, decide_eq_true_eq, beq_iff_eq, ← hb, and_assoc]
        constructor
        · rintro ⟨hn, _, _⟩
          exact ⟨hn, hv, by omega, by omega⟩
        · rintro ⟨hn, _, _, _⟩
          exact ⟨hn, by omega, by omega⟩
  · have hn : (prefixRange p).covers ip = false := by simp [IPRange.covers, hv]
    rw [hn]
    rw [prefixRange_ordered] at hv
    obtain ⟨addr, _⟩ := p
    cases addr with
    | invalid => rfl
    | v4 net | v6 net zone =>
      simp only [Prefix.isValid, decide_eq_true_eq] at hv
      cases ip <;> simp [Prefix.contains, hv]

theorem Addr.order_ofOrder (bound : n ≤ 2 ^ 32 + 2 ^ 128) : (ofOrder n).order = n := by
  unfold ofOrder
  split
  · simp_all [order]
  next hp =>
    split
    next small =>
      simp only [order, BitVec.toNat_ofNat]
      omega
    next large =>
      simp only [order, BitVec.toNat_ofNat]
      omega

def SameFamily (i : Nat × Nat) : Prop :=
  i.1 ≤ i.2 ∧ ((1 ≤ i.1 ∧ i.2 ≤ 2 ^ 32) ∨ (1 + 2 ^ 32 ≤ i.1 ∧ i.2 ≤ 2 ^ 32 + 2 ^ 128))

theorem IPRange.sameFamily (hv : r.ordered = true) : SameFamily r.interval := by
  refine ⟨order_le hv, ?_⟩
  rcases r.ordered_iff.mp hv with ⟨a, b, rfl, le⟩ | ⟨a, b, zone, rfl, le⟩
  · have := b.isLt
    simp only [IPRange.interval, order]
    omega
  · have := b.isLt
    simp only [IPRange.interval, order]
    omega

def IPRange.ofInterval (i : Nat × Nat) : IPRange := ⟨Addr.ofOrder i.1, Addr.ofOrder i.2⟩

theorem IPRange.ofInterval_valid {i : Nat × Nat} (hf : SameFamily i) :
    (IPRange.ofInterval i).ordered = true ∧ (IPRange.ofInterval i).interval = i := by
  obtain ⟨a, b⟩ := i
  obtain ⟨le, ⟨low, hh⟩ | ⟨low, hh⟩⟩ := hf
  · simp only at le low hh
    have hs : ofOrder a = .v4 (BitVec.ofNat 32 (a - 1)) := by rw [ofOrder, if_neg (by omega), if_pos (by omega)]
    have stop : ofOrder b = .v4 (BitVec.ofNat 32 (b - 1)) := by rw [ofOrder, if_neg (by omega), if_pos (by omega)]
    refine ⟨?_, Prod.ext (order_ofOrder (by simp only; omega)) (order_ofOrder (by simp only; omega))⟩
    simp only [IPRange.ofInterval, hs, stop, IPRange.ordered, decide_eq_true_eq, BitVec.le_def, BitVec.toNat_ofNat]
    omega
  · simp only at le low hh
    have hs : ofOrder a = .v6 (BitVec.ofNat 128 (a - 1 - 2 ^ 32)) "" := by rw [ofOrder, if_neg (by omega), if_neg (by omega)]
    have stop : ofOrder b = .v6 (BitVec.ofNat 128 (b - 1 - 2 ^ 32)) "" := by rw [ofOrder, if_neg (by omega), if_neg (by omega)]
    refine ⟨?_, Prod.ext (order_ofOrder (by simp only; omega)) (order_ofOrder (by simp only; omega))⟩
    simp only [IPRange.ofInterval, hs, stop, IPRange.ordered, decide_eq_true_eq, BitVec.le_def, BitVec.toNat_ofNat, true_and]
    omega

theorem SameFamily.hull {i j : Nat × Nat} (hl : SameFamily i) (hr : SameFamily j) (meets : ¬ i.2 < j.1)
    (meets' : ¬ j.2 < i.1) : SameFamily (min i.1 j.1, max i.2 j.2) := by
  obtain ⟨_, _⟩ := hl
  obtain ⟨_, _⟩ := hr
  refine ⟨by simp only; omega, ?_⟩
  omega

theorem mem_interval (hv : ∀ r ∈ rr, r.ordered = true) (ip : Addr) :
    (∃ r ∈ rr, r.covers ip = true) ↔ ip.zone = "" ∧ Mem ip.order (rr.map IPRange.interval) := by
  constructor
  · rintro ⟨r, mem, hi⟩
    obtain ⟨hn, hb⟩ := (IPRange.covers_iff (hv r mem) ip).mp hi
    exact ⟨hn, r.interval, mem_map.mpr ⟨r, mem, rfl⟩, hb⟩
  · rintro ⟨hn, i, mem, hb⟩
    obtain ⟨r, ht, rfl⟩ := mem_map.mp mem
    exact ⟨r, ht, (IPRange.covers_iff (hv r ht) ip).mpr ⟨hn, hb⟩⟩

def mergeRanges (rr : List IPRange) : List IPRange := (normalize (rr.map IPRange.interval)).map IPRange.ofInterval

section

variable (valid : ∀ r ∈ rr, r.ordered = true)

include valid

theorem sameFamily_normalize : ∀ i ∈ normalize (rr.map IPRange.interval), SameFamily i := by
  refine forall_normalize (fun i j => SameFamily.hull) fun i mem => ?_
  obtain ⟨r, hh, rfl⟩ := mem_map.mp mem
  exact IPRange.sameFamily (valid r hh)

theorem mergeRanges_valid : ∀ r ∈ mergeRanges rr, r.ordered = true := by
  intro r mem
  obtain ⟨i, ht, rfl⟩ := mem_map.mp mem
  exact (IPRange.ofInterval_valid (sameFamily_normalize valid i ht)).1

theorem interval_mergeRanges : (mergeRanges rr).map IPRange.interval = normalize (rr.map IPRange.interval) := by
  rw [mergeRanges, map_map]
  exact (map_congr_left fun i mem => (IPRange.ofInterval_valid (sameFamily_normalize valid i mem)).2).trans (map_id _)

theorem filled_intervals : ∀ i ∈ rr.map IPRange.interval, i.1 ≤ i.2 := by
  intro i mem
  obtain ⟨r, hh, rfl⟩ := mem_map.mp mem
  exact IPRange.order_le (valid r hh)

end

theorem prefixRange_last (p : Prefix) (hv : p.isValid = true) :
    p.contains (prefixRange p).stop = true ∧ ∀ ip, p.contains ip = true → ip.order ≤ (prefixRange p).stop.order := by
  have ho := (prefixRange_ordered p).trans hv
  have own : (prefixRange p).stop.zone = "" := by
    simp only [prefixRange]
    split <;> rfl
  simp only [← prefixRange_covers, IPRange.covers_iff ho]
  exact ⟨⟨own, IPRange.order_le ho, le_rfl⟩, fun ip h => h.2.2⟩

/-- The documented behaviour, computed. -/
def Netipx.plain : Netipx where
  ipRangeFrom := .between
  isValid := IPRange.ordered
  contains := IPRange.covers
  rangeOfPrefix := prefixRange
  prefixLastIP p := (prefixRange p).stop
  ipSet := mergeRanges
  ipRangeFrom_eq _ _ := rfl
  isValid_eq _ := rfl
  contains_eq _ _ := rfl
  prefix_ordered := prefixRange_ordered
  prefix_covers := prefixRange_covers
  last_ip := prefixRange_last
  set_ordered _ valid := mergeRanges_valid valid
  set_separated rr valid := by
    rw [interval_mergeRanges valid]
    exact (normalize_spec (filled_intervals valid)).1
  set_covers rr valid ip := by
    rw [mem_interval (mergeRanges_valid valid), mem_interval valid, interval_mergeRanges valid,
      (normalize_spec (filled_intervals valid)).2]

theorem Addr.less_iff {b : Addr} (hz : a.zone = b.zone) : a.less b = true ↔ a.order < b.order := by
  simp [less, hz]

theorem toNat_one (h : 1 < 2 ^ w) : (1 : BitVec w).toNat = 1 := by
  show (BitVec.ofNat w 1).toNat = 1
  rw [BitVec.toNat_ofNat, Nat.mod_eq_of_lt h]

theorem toNat_add_one {bits : BitVec w} (hm : bits + 1 ≠ 0) : (bits + 1).toNat = bits.toNat + 1 := by
  have one : (1 : BitVec w).toNat = 1 := by
    refine toNat_one (Nat.one_lt_two_pow ?_)
    rintro rfl
    exact hm (BitVec.eq_nil _ |>.trans (BitVec.eq_nil 0).symm)
  have hn : (bits + 1).toNat ≠ 0 := fun eq => hm (BitVec.eq_of_toNat_eq (by simpa using eq))
  rw [BitVec.toNat_add, one] at hn ⊢
  rcases Nat.lt_or_ge (bits.toNat + 1) (2 ^ w) with hf | full
  · exact Nat.mod_eq_of_lt hf
  · have all : bits.toNat + 1 = 2 ^ w := by omega
    rw [all, Nat.mod_self] at hn
    exact absurd rfl hn

theorem add_one_ne_zero {bits : BitVec w} (room : bits.toNat + 1 < 2 ^ w) : bits + 1 ≠ 0 := by
  intro hz
  have wrapped := congrArg BitVec.toNat hz
  rw [BitVec.toNat_add, toNat_one (by omega), Nat.mod_eq_of_lt room] at wrapped
  exact Nat.succ_ne_zero _ (wrapped.trans BitVec.toNat_zero)

theorem toNat_sub_one {bits : BitVec w} (hp : bits.toNat ≠ 0) : bits ≠ 0 ∧ (bits - 1).toNat + 1 = bits.toNat := by
  have one : (1 : BitVec w).toNat = 1 := toNat_one (by have := bits.isLt; omega)
  refine ⟨?_, ?_⟩
  · rintro rfl
    exact hp BitVec.toNat_zero
  · rw [BitVec.toNat_sub_of_le (by rw [BitVec.le_def, one]; omega), one]
    omega

theorem Addr.next_valid (hv : a.next.isValid = true) :
    a.isValid = true ∧ a.next.order = a.order + 1 ∧ a.next.zone = a.zone := by
  cases a with
  | invalid => cases hv
  | v4 bits | v6 bits zone =>
    by_cases hm : bits + 1 = 0
    · rw [next, if_pos hm] at hv
      cases hv
    · rw [next, if_neg hm]
      refine ⟨rfl, ?_, rfl⟩
      simp only [order, toNat_add_one hm]
      omega

theorem Addr.order_next (hf : SameFamily (a.order, n)) (hb : a.order < n) :
    a.next.order = a.order + 1 ∧ a.next.zone = a.zone := by
  have hv : a.next.isValid = true := by
    obtain ⟨_, hf⟩ := hf
    cases a with
    | invalid =>
      simp only [order] at hf
      omega
    | v4 bits | v6 bits =>
      simp only [order] at hf hb
      rw [next, if_neg (add_one_ne_zero (by omega))]
      rfl
  exact (next_valid hv).2

theorem Addr.order_prev (hf : SameFamily (n, a.order)) (ha : n < a.order) :
    a.prev.order + 1 = a.order ∧ a.prev.zone = a.zone := by
  obtain ⟨_, hf⟩ := hf
  cases a with
  | invalid =>
    simp only [order] at ha
    omega
  | v4 bits | v6 bits =>
    simp only [order] at hf ha
    obtain ⟨hp, less⟩ := @toNat_sub_one _ bits (by omega)
    rw [prev, if_neg hp]
    refine ⟨?_, rfl⟩
    simp only [order]
    omega

theorem addrFromSlice_asSlice {ip : Addr} (hv : ip.isValid = true) (hz : ip.zone = "") :
    addrFromSlice ip.asSlice = some ip := by
  cases ip with
  | invalid => cases hv
  | v4 bits =>
    have hs := bits.isLt
    rw [asSlice, addrFromSlice, if_pos (length_bigEndian _ _), fromBigEndian_bigEndian, Nat.mod_eq_of_lt (by exact hs)]
    simp
  | v6 bits z =>
    have hs := bits.isLt
    have eq : z = "" := hz
    rw [asSlice, addrFromSlice, if_neg (by rw [length_bigEndian]; decide), if_pos (length_bigEndian _ _), fromBigEndian_bigEndian,
      Nat.mod_eq_of_lt (by exact hs), eq]
    simp

end AsterCore
