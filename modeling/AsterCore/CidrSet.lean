import AsterCore.GoNetip

namespace AsterCore.Cidr

open Intervals IPRange Addr Cidr

structure V6Addr where
  hi : BitVec 64
  lo : BitVec 64
  deriving DecidableEq

structure IpCidrSet where
  rr : List IPRange := []
  merged : Bool := false
  v4From : List (BitVec 32) := []
  v4To : List (BitVec 32) := []
  v6From : List V6Addr := []
  v6To : List V6Addr := []
  deriving DecidableEq

def ipv4Uint32 : Addr → BitVec 32
  | .v4 bits => bits
  | .v6 bits _ => bits.setWidth 32
  | .invalid => 0#32

def ipv4FromUint32 (v : BitVec 32) : Addr := .v4 v

/-- `As16` of an IPv4 address is the mapped one. -/
def as16 : Addr → BitVec 128
  | .v4 bits => 0xffff#96 ++ bits
  | .v6 bits _ => bits
  | .invalid => 0#128

def ipv6Addr (ip : Addr) : V6Addr := ⟨(as16 ip).extractLsb' 64 64, (as16 ip).extractLsb' 0 64⟩

def v6ToIP (a : V6Addr) : Addr := .v6 (a.hi ++ a.lo) ""

def V6Addr.greater (a b : V6Addr) : Bool := a.hi > b.hi || (a.hi == b.hi && a.lo > b.lo)

def V6Addr.lessOrEqual (a b : V6Addr) : Bool := a.hi < b.hi || (a.hi == b.hi && a.lo ≤ b.lo)

def containsV4 (starts stops : List (BitVec 32)) (ip : BitVec 32) : Option Bool :=
  contains starts stops (fun a => a > ip) (fun b => ip ≤ b)

def containsV6 (starts stops : List V6Addr) (ip : V6Addr) : Option Bool :=
  contains starts stops (fun a => a.greater ip) ip.lessOrEqual

namespace IpCidrSet

variable (netipx : Netipx)

def appendCompactTo (set : IpCidrSet) (rr : List IPRange) : List IPRange :=
  rr ++ List.zipWith (fun a b => netipx.ipRangeFrom (ipv4FromUint32 a) (ipv4FromUint32 b)) set.v4From set.v4To ++
    List.zipWith (fun a b => netipx.ipRangeFrom (v6ToIP a) (v6ToIP b)) set.v6From set.v6To

def addIpCidr (prefixString : Prefix → String) (set : IpCidrSet) (ipCidr : Prefix) : Except String IpCidrSet :=
  let r := netipx.rangeOfPrefix ipCidr
  if netipx.isValid r then
    let set := if set.merged then { set with rr := set.appendCompactTo netipx [] } else set
    .ok { rr := set.rr ++ [r] }
  else .error ("not valid ipcidr range: " ++ prefixString ipCidr)

def buildLookup (set : IpCidrSet) (rr : List IPRange) : IpCidrSet :=
  let v4 := rr.filter fun r => r.start.is4
  let v6 := rr.filter fun r => !r.start.is4 && r.start.is6
  { set with
    v4From := v4.map fun r => ipv4Uint32 r.start
    v4To := v4.map fun r => ipv4Uint32 r.stop
    v6From := v6.map fun r => ipv6Addr r.start
    v6To := v6.map fun r => ipv6Addr r.stop }

def fromIPSet (set : IpCidrSet) (ranges : List IPRange) : IpCidrSet :=
  { set.buildLookup ranges with merged := true, rr := [] }

def merge (set : IpCidrSet) : Except String IpCidrSet :=
  if set.merged then .ok set
  else if set.rr.any fun r => !netipx.isValid r then .error "invalid IP range"
  else .ok (set.fromIPSet (netipx.ipSet set.rr))

/-- `IsContain`, of a set that may be nil. Nothing stands for an index out of range. -/
def isContain (set : Option IpCidrSet) (ip : Addr) : Option Bool :=
  match set with
  | none => some false
  | some set =>
    if !ip.isValid then some false
    else
      let ip := ip.withoutZone
      if set.merged then
        if ip.is4 then containsV4 set.v4From set.v4To (ipv4Uint32 ip)
        else if ip.is6 then containsV6 set.v6From set.v6To (ipv6Addr ip)
        else some false
      else some (set.rr.any fun r => netipx.contains r ip)

def isEmpty : Option IpCidrSet → Bool
  | none => true
  | some set => if set.merged then set.v4From.length + set.v6From.length = 0 else set.rr.length = 0

end IpCidrSet

inductive Op
  | add (ipCidr : Prefix)
  | merge

def step (netipx : Netipx) (prefixString : Prefix → String) (set : IpCidrSet) : Op → Except String IpCidrSet
  | .add ipCidr => set.addIpCidr netipx prefixString ipCidr
  | .merge => set.merge netipx

def run (netipx : Netipx) (prefixString : Prefix → String) (set : IpCidrSet) : List Op → IpCidrSet
  | [] => set
  | op :: ops =>
    match step netipx prefixString set op with
    | .ok set' => run netipx prefixString set' ops
    | .error _ => run netipx prefixString set ops

def added : List Op → List Prefix
  | [] => []
  | .add ipCidr :: ops => if ipCidr.isValid then ipCidr :: added ops else added ops
  | .merge :: ops => added ops

def V6Addr.value (a : V6Addr) : Nat := a.hi.toNat * 2 ^ 64 + a.lo.toNat

theorem V6Addr.greater_iff (a b : V6Addr) : a.greater b = true ↔ b.value < a.value := by
  simp only [V6Addr.greater, V6Addr.value, Bool.or_eq_true, Bool.and_eq_true, decide_eq_true_eq, beq_iff_eq, BitVec.lt_def,
    ← BitVec.toNat_inj]
  omega

theorem V6Addr.lessOrEqual_iff (a b : V6Addr) : a.lessOrEqual b = true ↔ a.value ≤ b.value := by
  simp only [V6Addr.lessOrEqual, V6Addr.value, Bool.or_eq_true, Bool.and_eq_true, decide_eq_true_eq, beq_iff_eq, BitVec.lt_def,
    BitVec.le_def, ← BitVec.toNat_inj]
  omega

theorem v6ToIP_ipv6Addr (bits : BitVec 128) (zone : String) : v6ToIP (ipv6Addr (.v6 bits zone)) = .v6 bits "" := by
  simp only [v6ToIP, ipv6Addr, as16]
  congr 1
  exact BitVec.extractLsb'_append_extractLsb'_eq_extractLsb' rfl |>.trans (by simp)

theorem value_ipv6Addr (bits : BitVec 128) (zone : String) : (ipv6Addr (.v6 bits zone)).value = bits.toNat := by
  simp only [V6Addr.value, ipv6Addr, as16, BitVec.extractLsb'_toNat]
  omega

inductive Form (set : IpCidrSet) (ranges : List IPRange) : Prop
  | listed (unmerged : set.merged = false) (eq : set.rr = ranges)
  | compact (merged : set.merged = true) (separated : Separated (ranges.map IPRange.interval))
    (eq : set = IpCidrSet.fromIPSet set ranges)

def v4Ranges (ranges : List IPRange) : List IPRange := ranges.filter fun r => r.start.is4

def v6Ranges (ranges : List IPRange) : List IPRange := ranges.filter fun r => !r.start.is4 && r.start.is6

variable {netipx : Netipx} {ranges : List IPRange} {r : IPRange} {set : IpCidrSet} {content : Addr → Prop}

section

variable (valid : ∀ r ∈ ranges, r.ordered = true)

include valid

theorem v4Ranges_valid (mem : r ∈ v4Ranges ranges) : ∃ a b, r = ⟨.v4 a, .v4 b⟩ ∧ a ≤ b := by
  obtain ⟨ht, is4⟩ := List.mem_filter.mp mem
  rcases r.ordered_iff.mp (valid r ht) with hf | ⟨a, b, zone, rfl, _⟩
  · exact hf
  · cases is4

theorem v6Ranges_valid (mem : r ∈ v6Ranges ranges) : ∃ a b zone, r = ⟨.v6 a zone, .v6 b zone⟩ ∧ a ≤ b := by
  obtain ⟨ht, is6⟩ := List.mem_filter.mp mem
  rcases r.ordered_iff.mp (valid r ht) with ⟨a, b, rfl, _⟩ | hf
  · cases is6
  · exact hf

theorem mem_families (r : IPRange) : r ∈ ranges ↔ r ∈ v4Ranges ranges ∨ r ∈ v6Ranges ranges := by
  constructor
  · intro mem
    rcases r.ordered_iff.mp (valid r mem) with ⟨a, b, rfl, _⟩ | ⟨a, b, zone, rfl, _⟩
    · exact .inl (List.mem_filter.mpr ⟨mem, rfl⟩)
    · exact .inr (List.mem_filter.mpr ⟨mem, rfl⟩)
  · rintro (mem | mem)
    · exact (List.mem_filter.mp mem).1
    · exact (List.mem_filter.mp mem).1

end

theorem contains_table {β : Type} {family : List IPRange} {word : Addr → β} (key : β → Nat) (greater atMost : β → Bool) (x : Nat)
    (hg_iff : ∀ b, greater b = true ↔ x < key b) (ham_iff : ∀ b, atMost b = true ↔ x ≤ key b)
    (hb : ∀ r ∈ family, (key (word r.start), key (word r.stop)) = r.interval ∧ r.start.order ≤ r.stop.order)
    (hs : Separated (family.map interval)) :
    ∃ b, contains (family.map fun r => word r.start) (family.map fun r => word r.stop) greater atMost = some b ∧
      (b = true ↔ Mem x (family.map interval)) := by
  have ht : ((family.map fun r => word r.start).zip (family.map fun r => word r.stop)).map (fun i => (key i.1, key i.2)) =
      family.map interval := by
    rw [List.zip_map', List.map_map]
    exact List.map_congr_left fun r mem => (hb r mem).1
  have hf := @contains_spec β (family.map fun r => word r.start) (family.map fun r => word r.stop) greater atMost key x
    hg_iff ham_iff (by simp) (by rw [ht]; exact hs) (fun i mem => by
      rw [List.zip_map'] at mem
      obtain ⟨r, hth, rfl⟩ := List.mem_map.mp mem
      have order := (hb r hth).2
      have eq := (hb r hth).1
      have hl := congrArg Prod.fst eq
      have hr := congrArg Prod.snd eq
      simp only [interval] at hl hr
      show key (word r.start) ≤ key (word r.stop)
      omega)
  rwa [ht] at hf

section

variable (valid : ∀ r ∈ ranges, r.ordered = true)

include valid

theorem contains_v4 (hs : Separated (ranges.map interval)) (ip : BitVec 32) :
    ∃ b, containsV4 ((v4Ranges ranges).map fun r => ipv4Uint32 r.start)
    ((v4Ranges ranges).map fun r => ipv4Uint32 r.stop) ip = some b ∧
      (b = true ↔ ∃ r ∈ ranges, r.covers (.v4 ip) = true) := by
  have hb : ∀ r ∈ v4Ranges ranges, (1 + (ipv4Uint32 r.start).toNat, 1 + (ipv4Uint32 r.stop).toNat) = r.interval ∧
      r.start.order ≤ r.stop.order := by
    intro r mem
    obtain ⟨a, b, rfl, le⟩ := v4Ranges_valid valid mem
    exact ⟨rfl, Nat.add_le_add_left le 1⟩
  have hap : Separated ((v4Ranges ranges).map interval) :=
    hs.sublist ((List.filter_sublist).map _)
  obtain ⟨b, hf, ha⟩ := contains_table (fun w : BitVec 32 => 1 + w.toNat) (fun a => a > ip)
    (fun b => ip ≤ b) (1 + ip.toNat) (fun w => by simp [BitVec.lt_def]) (fun w => by simp [BitVec.le_def]) hb hap
  refine ⟨b, hf, ha.trans ?_⟩
  have own := mem_interval (fun r mem => valid r (List.mem_filter.mp mem).1 : ∀ r ∈ v4Ranges ranges, r.ordered = true) (.v4 ip)
  have same : (∃ r ∈ v4Ranges ranges, r.covers (.v4 ip) = true) ↔ Mem (1 + ip.toNat) ((v4Ranges ranges).map interval) :=
    own.trans (and_iff_right rfl)
  rw [← same]
  constructor
  · rintro ⟨r, mem, hi⟩
    exact ⟨r, (List.mem_filter.mp mem).1, hi⟩
  · rintro ⟨r, mem, hi⟩
    rcases (mem_families valid r).mp mem with ht | ht
    · exact ⟨r, ht, hi⟩
    · obtain ⟨a, b, _, rfl, _⟩ := v6Ranges_valid valid ht
      have hb := ((covers_iff (valid _ mem) _).mp hi).2
      simp only [order] at hb
      omega

theorem contains_v6 (hs : Separated (ranges.map interval)) (ip : BitVec 128) :
    ∃ b, containsV6 ((v6Ranges ranges).map fun r => ipv6Addr r.start) ((v6Ranges ranges).map fun r => ipv6Addr r.stop)
        (ipv6Addr (.v6 ip "")) = some b ∧
      (b = true ↔ ∃ r ∈ ranges, r.covers (.v6 ip "") = true) := by
  have hb : ∀ r ∈ v6Ranges ranges,
      (1 + 2 ^ 32 + (ipv6Addr r.start).value, 1 + 2 ^ 32 + (ipv6Addr r.stop).value) = r.interval ∧ r.start.order ≤ r.stop.order := by
    intro r mem
    obtain ⟨a, b, _, rfl, le⟩ := v6Ranges_valid valid mem
    refine ⟨?_, Nat.add_le_add_left le _⟩
    rw [value_ipv6Addr, value_ipv6Addr]
    rfl
  have hap : Separated ((v6Ranges ranges).map interval) :=
    hs.sublist ((List.filter_sublist).map _)
  have value := value_ipv6Addr ip ""
  obtain ⟨b, hf, ha⟩ := contains_table (fun w : V6Addr => 1 + 2 ^ 32 + w.value) (fun a => a.greater (ipv6Addr (.v6 ip "")))
    (fun b => (ipv6Addr (.v6 ip "")).lessOrEqual b) (1 + 2 ^ 32 + ip.toNat)
    (fun w => by rw [V6Addr.greater_iff]; omega) (fun w => by rw [V6Addr.lessOrEqual_iff]; omega) hb hap
  refine ⟨b, hf, ha.trans ?_⟩
  have own := mem_interval (fun r mem => valid r (List.mem_filter.mp mem).1 : ∀ r ∈ v6Ranges ranges, r.ordered = true) (.v6 ip "")
  have same : (∃ r ∈ v6Ranges ranges, r.covers (.v6 ip "") = true) ↔
      Mem (1 + 2 ^ 32 + ip.toNat) ((v6Ranges ranges).map interval) := own.trans (and_iff_right rfl)
  rw [← same]
  constructor
  · rintro ⟨r, mem, hi⟩
    exact ⟨r, (List.mem_filter.mp mem).1, hi⟩
  · rintro ⟨r, mem, hi⟩
    rcases (mem_families valid r).mp mem with ht | ht
    · obtain ⟨a, b, rfl, _⟩ := v4Ranges_valid valid ht
      have hb := ((covers_iff (valid _ mem) _).mp hi).2
      simp only [order] at hb
      omega
    · exact ⟨r, ht, hi⟩

theorem isContain_of_form (form : Form set ranges) (ip : Addr) :
    IpCidrSet.isContain netipx (some set) ip = some (ip.isValid && ranges.any fun r => r.covers ip.withoutZone) := by
  unfold IpCidrSet.isContain
  cases form with
  | listed hu eq =>
    cases ip with
    | invalid => rfl
    | v4 bits | v6 bits zone => simp [hu, eq, Addr.isValid, netipx.contains_eq]
  | compact hm hs eq =>
    have hd : ∀ {b : Bool} {x : Addr}, (b = true ↔ ∃ r ∈ ranges, r.covers x = true) → b = ranges.any fun r => r.covers x := by
      intro b x iff
      rw [Bool.eq_iff_iff, iff, List.any_eq_true]
    cases ip with
    | invalid => rfl
    | v4 bits =>
      obtain ⟨b, hf, ha⟩ := contains_v4 valid hs bits
      simp only [Addr.isValid, Addr.withoutZone, Bool.not_true, Bool.true_and]
      rw [← hd ha, ← hf, eq]
      rfl
    | v6 bits =>
      obtain ⟨b, hf, ha⟩ := contains_v6 valid hs bits
      simp only [Addr.isValid, Addr.withoutZone, Bool.not_true, Bool.true_and]
      rw [← hd ha, ← hf, eq]
      rfl

theorem appendCompactTo_eq (eq : set = IpCidrSet.fromIPSet set ranges) :
    set.appendCompactTo netipx [] = (v4Ranges ranges ++ v6Ranges ranges).map fun r => .between r.start r.stop := by
  have v4 : List.zipWith (fun a b => between (ipv4FromUint32 a) (ipv4FromUint32 b)) set.v4From set.v4To =
      (v4Ranges ranges).map fun r => .between r.start r.stop := by
    rw [eq]
    show List.zipWith _ ((v4Ranges ranges).map fun r => ipv4Uint32 r.start) ((v4Ranges ranges).map fun r => ipv4Uint32 r.stop) = _
    rw [List.zipWith_map, List.zipWith_self]
    refine List.map_congr_left fun r mem => ?_
    obtain ⟨a, b, rfl, _⟩ := v4Ranges_valid valid mem
    rfl
  have v6 : List.zipWith (fun a b => between (v6ToIP a) (v6ToIP b)) set.v6From set.v6To =
      (v6Ranges ranges).map fun r => .between r.start r.stop := by
    rw [eq]
    show List.zipWith _ ((v6Ranges ranges).map fun r => ipv6Addr r.start) ((v6Ranges ranges).map fun r => ipv6Addr r.stop) = _
    rw [List.zipWith_map, List.zipWith_self]
    refine List.map_congr_left fun r mem => ?_
    obtain ⟨a, b, _, rfl, _⟩ := v6Ranges_valid valid mem
    rw [v6ToIP_ipv6Addr, v6ToIP_ipv6Addr]
    rfl
  simp only [IpCidrSet.appendCompactTo, netipx.ipRangeFrom_eq]
  rw [v4, v6, List.nil_append, List.map_append]

end

theorem between_valid (hv : r.ordered = true) :
    (between r.start r.stop).ordered = true ∧ ∀ ip, (between r.start r.stop).covers ip = r.covers ip := by
  rcases r.ordered_iff.mp hv with ⟨a, b, rfl, le⟩ | ⟨a, b, zone, rfl, le⟩
  · exact ⟨hv, fun ip => rfl⟩
  · have hk : (IPRange.between (.v6 a zone) (.v6 b zone)).ordered = true := by simpa [IPRange.between, IPRange.ordered, Addr.withoutZone] using le
    refine ⟨hk, fun ip => ?_⟩
    rw [Bool.eq_iff_iff, covers_iff hk, covers_iff hv]
    rfl

theorem appendCompactTo_covers (hv : ∀ r ∈ ranges, r.ordered = true) (eq : set = IpCidrSet.fromIPSet set ranges) :
    (∀ r ∈ set.appendCompactTo netipx [], r.ordered = true) ∧
      ∀ ip, (∃ r ∈ set.appendCompactTo netipx [], r.covers ip = true) ↔ ∃ r ∈ ranges, r.covers ip = true := by
  rw [appendCompactTo_eq hv eq]
  have hf : ∀ r, r ∈ v4Ranges ranges ++ v6Ranges ranges ↔ r ∈ ranges := by
    intro r
    rw [List.mem_append, ← mem_families hv]
  refine ⟨fun r mem => ?_, fun ip => ?_⟩
  · obtain ⟨q, ht, rfl⟩ := List.mem_map.mp mem
    exact (between_valid (hv q ((hf q).mp ht))).1
  · constructor
    · rintro ⟨r, mem, hi⟩
      obtain ⟨q, ht, rfl⟩ := List.mem_map.mp mem
      have old := (hf q).mp ht
      exact ⟨q, old, by rwa [(between_valid (hv q old)).2] at hi⟩
    · rintro ⟨r, mem, _⟩
      refine ⟨_, List.mem_map.mpr ⟨r, (hf r).mpr mem, rfl⟩, ?_⟩
      rwa [(between_valid (hv r mem)).2]

structure Stands (set : IpCidrSet) (content : Addr → Prop) : Prop where
  form : ∃ ranges, (∀ r ∈ ranges, r.ordered = true) ∧ Form set ranges ∧ ∀ ip, content ip ↔ ∃ r ∈ ranges, r.covers ip = true

theorem stands_new : Stands {} fun _ => False := ⟨[], by simp, .listed rfl rfl, by simp⟩

section

variable (h : Stands set content)

include h

theorem Stands.merge (netipx : Netipx) : ∃ set', set.merge netipx = .ok set' ∧ set'.merged = true ∧ Stands set' content := by
  obtain ⟨ranges, hv, hf, same⟩ := h.form
  cases hf with
  | compact hm hs eq =>
    exact ⟨set, by rw [IpCidrSet.merge, if_pos hm], hm, ⟨ranges, hv, .compact hm hs eq, same⟩⟩
  | listed hu eq =>
    have hn : (set.rr.any fun r => !netipx.isValid r) = false := by
      rw [eq, List.any_eq_false]
      intro r mem
      simp [netipx.isValid_eq, hv r mem]
    refine ⟨_, by rw [IpCidrSet.merge, hu, hn]; rfl, rfl, ⟨netipx.ipSet ranges, netipx.set_ordered ranges hv, ?_, fun ip => ?_⟩⟩
    · exact .compact rfl (netipx.set_separated ranges hv) (by rw [eq]; rfl)
    · rw [same, netipx.set_covers ranges hv]

theorem Stands.add (netipx : Netipx) (prefixString : Prefix → String) (p : Prefix) :
    if p.isValid then
      ∃ set', set.addIpCidr netipx prefixString p = .ok set' ∧ Stands set' fun ip => content ip ∨ p.contains ip = true
    else ∃ e, set.addIpCidr netipx prefixString p = .error e := by
  have ordered := netipx.prefix_ordered p
  have checked := (netipx.isValid_eq _).trans ordered
  split
  next new =>
    refine ⟨_, if_pos (checked.trans new), ?_⟩
    have hg : ∀ {ranges : List IPRange}, (∀ r ∈ ranges, r.ordered = true) → (∀ ip, content ip ↔ ∃ r ∈ ranges, r.covers ip = true) →
        Stands { rr := ranges ++ [netipx.rangeOfPrefix p] } fun ip => content ip ∨ p.contains ip = true := by
      intro _ hv hs
      refine ⟨_, fun r mem => ?_, .listed rfl rfl, fun ip => ?_⟩
      · rcases List.mem_append.mp mem with ht | hh
        · exact hv r ht
        · rw [List.mem_singleton.mp hh]
          exact ordered.trans new
      · rw [hs, ← netipx.prefix_covers]
        simp [or_and_right, exists_or]
    obtain ⟨_, hv, hf, hs⟩ := h.form
    cases hf with
    | listed hu eq =>
      simp only [hu, Bool.false_eq_true, if_false, eq]
      exact hg hv hs
    | compact hm _ eq =>
      simp only [hm]
      obtain ⟨hv', hc⟩ := appendCompactTo_covers hv eq
      exact hg hv' fun ip => (hs ip).trans (hc ip).symm
  next hi => exact ⟨_, if_neg (checked ▸ hi)⟩

theorem Stands.run (netipx : Netipx) (prefixString : Prefix → String) (ops : List Op) :
    Stands (run netipx prefixString set ops) fun ip => content ip ∨ ∃ p ∈ added ops, p.contains ip = true := by
  induction ops generalizing set content with
  | nil => simpa [run, added] using h
  | cons op ops ih =>
    cases op with
    | merge =>
      obtain ⟨set', hm, _, hs⟩ := h.merge netipx
      have hn : run netipx prefixString set (.merge :: ops) = run netipx prefixString set' ops := by
        simp only [run, step, hm]
      rw [hn]
      exact ih hs
    | add p =>
      have add := h.add netipx prefixString p
      by_cases new : p.isValid = true
      · rw [if_pos new] at add
        obtain ⟨set', hd, hs⟩ := add
        have hn : run netipx prefixString set (.add p :: ops) = run netipx prefixString set' ops := by
          simp only [run, step, hd]
        rw [hn]
        have more := ih hs
        simpa [added, new, or_assoc] using more
      · rw [if_neg new] at add
        obtain ⟨e, hf⟩ := add
        have hn : run netipx prefixString set (.add p :: ops) = run netipx prefixString set ops := by
          simp only [run, step, hf]
        rw [hn]
        have more := ih h
        simpa [added, new] using more

theorem Stands.isContain (ip : Addr) :
    ∃ b, IpCidrSet.isContain netipx (some set) ip = some b ∧ (b = true ↔ content ip.withoutZone) := by
  obtain ⟨_, hv, form, hs⟩ := h.form
  refine ⟨_, isContain_of_form hv form ip, ?_⟩
  rw [hs, Bool.and_eq_true, List.any_eq_true]
  constructor
  · exact fun h => h.2
  · intro hfo
    refine ⟨?_, hfo⟩
    cases ip with
    | invalid =>
      obtain ⟨r, mem, hi⟩ := hfo
      have hb := ((covers_iff (hv r mem) _).mp hi).2
      have hf := (sameFamily (hv r mem)).2
      simp only [withoutZone, order, interval] at hb hf
      omega
    | v4 bits | v6 bits zone => rfl

end

/-- `IsContain` says whether an added prefix has the address, whenever and however often the set is merged,
and `Merge` does not fail. -/
theorem isContain_run (netipx : Netipx) (prefixString : Prefix → String) (ops : List Op) (ip : Addr) :
    IpCidrSet.isContain netipx (some (run netipx prefixString {} ops)) ip =
        some ((added ops).any fun p => p.contains ip.withoutZone) ∧
      ∃ set, (run netipx prefixString {} ops).merge netipx = .ok set ∧ set.merged = true ∧
        IpCidrSet.isContain netipx (some set) ip = some ((added ops).any fun p => p.contains ip.withoutZone) := by
  have ha : ∀ {set : IpCidrSet}, (Stands set fun ip => False ∨ ∃ p ∈ added ops, p.contains ip = true) →
      IpCidrSet.isContain netipx (some set) ip = some ((added ops).any fun p => p.contains ip.withoutZone) := by
    intro _ hs
    obtain ⟨b, hf, iff⟩ := hs.isContain ip
    rw [hf, Option.some_inj, Bool.eq_iff_iff, iff, false_or, List.any_eq_true]
  have hs := stands_new.run netipx prefixString ops
  refine ⟨ha hs, ?_⟩
  obtain ⟨set, done, merged, hs'⟩ := hs.merge netipx
  exact ⟨set, done, merged, ha hs'⟩

/-- `10.0.0.0/8`, then after a merge `10.1.0.0/16` in it and `2001:db8::/32`, and a prefix that is refused. -/
def bothFamilies : List Op :=
  [.add ⟨.v4 0x0a000000, 8⟩, .merge, .add ⟨.v4 0x0a010000, 16⟩, .add ⟨.v6 0x20010db8000000000000000000000000 "", 32⟩, .merge,
    .add ⟨.v4 0x0a000000, 33⟩]

theorem isContain_run_both :
    IpCidrSet.isContain .plain (some (run .plain (fun _ => "10.0.0.0/33") {} bothFamilies)) (.v4 0x0a010203) = some true ∧
    IpCidrSet.isContain .plain (some (run .plain (fun _ => "10.0.0.0/33") {} bothFamilies)) (.v4 0x0b000000) = some false ∧
    ∃ set, (run .plain (fun _ => "10.0.0.0/33") {} bothFamilies).merge .plain = .ok set ∧ set.merged = true ∧
      IpCidrSet.isContain .plain (some set) (.v6 0x20010db8000000000000000000000001 "eth0") = some true := by
  have contained := isContain_run .plain (fun _ => "10.0.0.0/33") bothFamilies
  exact ⟨(contained _).1, (contained _).1, (contained _).2⟩

end AsterCore.Cidr
