import AsterCore.GoBinary
import AsterCore.DomainSetForeach

namespace AsterCore.Trie

open BitWords SortedWords LevelOrder GoBinary List DomainSet Except

def maxBinaryDomainLabels : Nat := 2 ^ 24

section Write

variable {σ ε : Type} (write : σ → List UInt8 → Except ε σ)

def writeUint64Slice (s : σ) (values : List (BitVec 64)) : Except ε σ := do
  let s ← write s (putUint64 (BitVec.ofNat 64 values.length))
  if values.length = 0 then return s
  write s (values.flatMap putUint64)

def DomainSet.writeBin (ss : DomainSet) (s : σ) : Except ε σ := do
  let s ← write s [1]
  let s ← writeUint64Slice write s ss.leaves
  let s ← writeUint64Slice write s ss.labelBitmap
  let s ← write s (putUint64 (BitVec.ofNat 64 ss.labels.length))
  write s ss.labels

end Write

def readUint64Slice (minLen maxLen : Int) (what : String) (r : List UInt8) : Except ReadError (List (BitVec 64) × List UInt8) := do
  let (hdr, r) ← readFull 8 r
  let length := (uint64 hdr).toInt
  failIf (length < minLen ∨ length > maxLen) (.message (what ++ " length " ++ toString length ++ " is invalid"))
  let n := length.toNat
  let (buf, r) ← readFull (n * 8) r
  return ((List.range n).map fun i => uint64 ((buf.drop (i * 8)).take 8), r)

def checkedBit (bm : List (BitVec 64)) (i : Nat) : Except ReadError Bool :=
  match getBit bm i with
  | some one => .ok one
  | none => .error .indexOutOfRange

def lastShifted (bm : List (BitVec 64)) (rem : Nat) : Except ReadError (BitVec 64) :=
  match bm.getLast? with
  | some word => .ok (word >>> rem)
  | none => .error .indexOutOfRange

/-- The bits after the first `n` in the last word. -/
def checkPadding (bm : List (BitVec 64)) (n : Nat) (text : String) : Except ReadError Unit :=
  if n % 64 = 0 then .ok ()
  else do
    let rest ← lastShifted bm (n % 64)
    failIf (rest ≠ 0#64) (.message text)

def countBits (bm : List (BitVec 64)) (labelBits : Nat) : Nat → Nat → Nat → Nat → Except ReadError (Nat × Nat)
  | 0, _, zeros, ones => .ok (zeros, ones)
  | n + 1, i, zeros, ones => do
    let one ← checkedBit bm i
    let counts := if one then (zeros, ones + 1) else (zeros + 1, ones)
    failIf (i < labelBits - 1 ∧ counts.2 > counts.1) (.message ("domain set tree is disconnected at bit " ++ toString i))
    countBits bm labelBits n (i + 1) counts.1 counts.2

def DomainSet.validateBinary (ss : DomainSet) : Except ReadError Unit := do
  let nodes := (ss.labelBitmap.map onesCount).sum
  failIf (nodes < 2 ∨ nodes ≠ ss.labels.length + 1)
    (.message ("domain set node/label mismatch: nodes=" ++ toString nodes ++ " labels=" ++ toString ss.labels.length))
  let labelBits := 2 * nodes - 1
  failIf (ss.labelBitmap.length ≠ (labelBits + 63) / 64)
    (.message ("domain set label bitmap has " ++ toString ss.labelBitmap.length ++ " words, want " ++
      toString ((labelBits + 63) / 64)))
  checkPadding ss.labelBitmap labelBits "domain set label bitmap has non-zero padding"
  failIf (ss.leaves.length ≠ (nodes + 63) / 64)
    (.message ("domain set leaf bitmap has " ++ toString ss.leaves.length ++ " words, want " ++ toString ((nodes + 63) / 64)))
  checkPadding ss.leaves nodes "domain set leaf bitmap has non-zero padding"
  let leafCount := (ss.leaves.map onesCount).sum
  failIf (leafCount = 0) (.message "domain set has no terminal nodes")
  let (zeros, ones) ← countBits ss.labelBitmap labelBits labelBits 0 0 0
  let last ← checkedBit ss.labelBitmap (labelBits - 1)
  failIf (zeros ≠ nodes - 1 ∨ ones ≠ nodes ∨ last = false) (.message "domain set tree bitmap is not balanced")

/-- `ReadDomainSetBin` of the bytes that a reader gives, with what is left of them. -/
def readDomainSetBin (r : List UInt8) : Except ReadError (DomainSet × List UInt8) := do
  let (version, r) ← readFull 1 r
  failIf (version.head? ≠ some 1) (.message "version is invalid")
  let (leaves, r) ← readUint64Slice 1 ((maxBinaryDomainLabels + 64) / 64 : Nat) "leaf bitmap" r
  let (labelBitmap, r) ← readUint64Slice 1 ((2 * maxBinaryDomainLabels + 64) / 64 : Nat) "label bitmap" r
  let (hdr, r) ← readFull 8 r
  let length := (uint64 hdr).toInt
  failIf (length < 1 ∨ length > maxBinaryDomainLabels) (.message ("label length " ++ toString length ++ " is invalid"))
  let (labels, r) ← readFull length.toNat r
  DomainSet.validateBinary ⟨leaves, labelBitmap, labels, []⟩
  return (⟨leaves, labelBitmap, labels, buildChildIndex labelBitmap⟩, r)

structure ValidBinary (ss : DomainSet) (nodes : Nat) : Prop where
  ones : (ss.labelBitmap.map onesCount).sum = nodes
  several : 2 ≤ nodes
  labels : nodes = ss.labels.length + 1
  bitmapWords : ss.labelBitmap.length = (2 * nodes - 1 + 63) / 64
  bitmapPadding : (2 * nodes - 1) % 64 ≠ 0 → lastShifted ss.labelBitmap ((2 * nodes - 1) % 64) = .ok 0#64
  leafWords : ss.leaves.length = (nodes + 63) / 64
  leafPadding : nodes % 64 ≠ 0 → lastShifted ss.leaves (nodes % 64) = .ok 0#64
  terminal : (ss.leaves.map onesCount).sum ≠ 0
  connected : ∀ i, i < 2 * nodes - 2 → 2 * onesBefore ss.labelBitmap (i + 1) ≤ i + 1
  balanced : onesBefore ss.labelBitmap (2 * nodes - 1) = nodes
  last : bitAt ss.labelBitmap (2 * nodes - 2) = true

variable {bm : List (BitVec 64)} {i : Nat}

theorem onesBefore_succ (hi : i < 64 * bm.length) : onesBefore bm (i + 1) = onesBefore bm i + if bitAt bm i then 1 else 0 := by
  have bit := getElem?_flatMap_wordBits bm i
  rw [if_pos hi] at bit
  rw [onesBefore, take_add_one, bit, count_append]
  cases bitAt bm i <;> rfl

theorem onesBefore_le (bm : List (BitVec 64)) (i : Nat) : onesBefore bm i ≤ i := by
  refine count_le_length.trans ?_
  rw [length_take]
  omega

theorem checkedBit_eq (hi : i < 64 * bm.length) : checkedBit bm i = .ok (bitAt bm i) := by
  rw [checkedBit, getBit_eq (by omega)]

theorem countBits_ok {labelBits : Nat} (hi : labelBits ≤ 64 * bm.length) (n : Nat) (bound : i + n = labelBits) (r : Nat × Nat) :
    countBits bm labelBits n i (i - onesBefore bm i) (onesBefore bm i) = .ok r ↔
      (∀ j, i ≤ j → j < labelBits - 1 → 2 * onesBefore bm (j + 1) ≤ j + 1) ∧
        r = (labelBits - onesBefore bm labelBits, onesBefore bm labelBits) := by
  induction n generalizing i with
  | zero =>
    have hd : i = labelBits := by omega
    subst hd
    constructor
    · intro eq
      cases eq
      exact ⟨fun j ha less => by omega, rfl⟩
    · rintro ⟨_, rfl⟩
      rfl
  | succ _ ih =>
    have hh := @onesBefore_succ bm i (by omega)
    have few := onesBefore_le bm i
    have hc : (if bitAt bm i then (i - onesBefore bm i, onesBefore bm i + 1) else (i - onesBefore bm i + 1, onesBefore bm i)) =
        (i + 1 - onesBefore bm (i + 1), onesBefore bm (i + 1)) := by
      cases bit : bitAt bm i with
      | true =>
        rw [bit] at hh
        simp only [if_true] at hh ⊢
        rw [hh]
        congr 1
        omega
      | false =>
        rw [bit] at hh
        simp only [Bool.false_eq_true, if_false] at hh ⊢
        rw [hh]
        congr 1
        omega
    rw [countBits, checkedBit_eq (by omega)]
    show (failIf _ _ >>= fun _ => _) = _ ↔ _
    rw [hc, failIf_bind, ih (by omega)]
    constructor
    · rintro ⟨hk, hl, rfl⟩
      refine ⟨fun j ha less => ?_, rfl⟩
      rcases Nat.lt_or_eq_of_le ha with hm | rfl
      · exact hl j hm less
      · simp only [not_and] at hk
        omega
    · rintro ⟨all, rfl⟩
      refine ⟨?_, fun j ha less => all j (by omega) less, rfl⟩
      rintro ⟨less, _⟩
      have := all i (Nat.le_refl i) less
      omega

theorem checkPadding_ok {n : Nat} {text : String} :
    checkPadding bm n text = .ok () ↔ (n % 64 ≠ 0 → lastShifted bm (n % 64) = .ok 0#64) := by
  unfold checkPadding
  split
  next hf => simp [hf]
  next hp =>
    rw [bind_ok]
    simp only [ne_eq, hp, not_false_eq_true, forall_const]
    constructor
    · rintro ⟨_, eq, hc⟩
      rw [eq, not_not.mp (failIf_ok.mp hc)]
    · intro eq
      exact ⟨0#64, eq, rfl⟩

theorem validateBinary_ok {ss : DomainSet} {nodes : Nat} (hco : (ss.labelBitmap.map onesCount).sum = nodes) :
    ss.validateBinary = .ok () ↔ ValidBinary ss nodes := by
  unfold validateBinary
  rw [hco]
  constructor
  · intro ok
    obtain ⟨hf, ok⟩ := failIf_bind.mp ok
    obtain ⟨hw, ok⟩ := failIf_bind.mp ok
    obtain ⟨_, hp, ok⟩ := bind_ok.mp ok
    obtain ⟨hlw, ok⟩ := failIf_bind.mp ok
    obtain ⟨_, hlp, ok⟩ := bind_ok.mp ok
    obtain ⟨ht, ok⟩ := failIf_bind.mp ok
    obtain ⟨⟨zeros, ones⟩, hc, ok⟩ := bind_ok.mp ok
    obtain ⟨last, bit, ok⟩ := bind_ok.mp ok
    have hb := failIf_ok.mp ok
    rw [not_or, not_or] at hb
    have long := not_not.mp hw
    have hi : 2 * nodes - 1 ≤ 64 * ss.labelBitmap.length := by omega
    rw [not_or, not_not] at hf
    rw [checkedBit_eq (by omega)] at bit
    have loop := (countBits_ok hi (2 * nodes - 1) (i := 0) (by omega) (zeros, ones)).mp hc
    refine ⟨hco, by omega, hf.2, long, checkPadding_ok.mp hp, not_not.mp hlw, checkPadding_ok.mp hlp, ht,
      fun i less => loop.1 i (Nat.zero_le i) (by omega), ?_, ?_⟩
    · rw [← (Prod.mk.inj loop.2).2]
      exact not_not.mp hb.2.1
    · have : last = true := by simpa using hb.2.2
      rw [this] at bit
      exact Except.ok.inj bit
  · intro hv
    have long := hv.bitmapWords
    have hs := hv.several
    have hl := hv.labels
    have hi : 2 * nodes - 1 ≤ 64 * ss.labelBitmap.length := by omega
    have hba := hv.balanced
    refine failIf_bind.mpr ⟨by omega, failIf_bind.mpr ⟨not_not.mpr long, ?_⟩⟩
    refine bind_ok.mpr ⟨(), checkPadding_ok.mpr hv.bitmapPadding, ?_⟩
    refine failIf_bind.mpr ⟨not_not.mpr hv.leafWords, bind_ok.mpr ⟨(), checkPadding_ok.mpr hv.leafPadding, ?_⟩⟩
    refine failIf_bind.mpr ⟨hv.terminal, bind_ok.mpr ⟨(2 * nodes - 1 - nodes, nodes), ?_, ?_⟩⟩
    · have loop := countBits_ok hi (2 * nodes - 1) (i := 0) (by omega) (2 * nodes - 1 - nodes, nodes)
      refine loop.mpr ⟨fun j _ less => hv.connected j (by omega), ?_⟩
      rw [hba]
    · refine bind_ok.mpr ⟨true, ?_, failIf_ok.mpr ?_⟩
      · rw [checkedBit_eq (by omega)]
        exact congrArg ok hv.last
      · rintro (bad | bad | bad)
        · exact bad (by omega)
        · exact bad rfl
        · cases bad

theorem ValidBinary.short {ss : DomainSet} {nodes : Nat} (h : ValidBinary ss nodes) (few : ss.labels.length ≤ 2 ^ 24) :
    ss.labelBitmap.length ≤ 2 ^ 25 := by
  have hl := h.labels
  have hw := h.bitmapWords
  omega

theorem readUint64Slice_append {minLen maxLen : Int} {what : String} {values : List (BitVec 64)} (low : minLen ≤ values.length)
    (high : (values.length : Int) ≤ maxLen) (hs : values.length < 2 ^ 63) (rest : List UInt8) :
    readUint64Slice minLen maxLen what (putUint64 (BitVec.ofNat 64 values.length) ++ (values.flatMap putUint64 ++ rest)) =
      .ok (values, rest) := by
  unfold readUint64Slice
  rw [readFull_append (length_putUint64 _)]
  refine failIf_bind.mpr ⟨?_, ?_⟩
  · rw [uint64_putUint64, toInt_ofNat_small hs]
    omega
  · rw [uint64_putUint64, toInt_ofNat_small hs, Int.toNat_natCast]
    dsimp only
    rw [readFull_append (length_flatMap_chunks length_putUint64 values)]
    exact congrArg (fun v => ok (v, rest)) (uint64_chunks values)

theorem writeUint64Slice_buffer (s : List UInt8) (values : List (BitVec 64)) :
    writeUint64Slice bufferWrite s values =
      .ok (s ++ (putUint64 (BitVec.ofNat 64 values.length) ++ values.flatMap putUint64)) := by
  unfold writeUint64Slice bufferWrite
  cases values with
  | nil => simp [bind, Except.bind, pure, Except.pure]
  | cons => simp [bind, Except.bind]

def DomainSet.bytes (ss : DomainSet) : List UInt8 :=
  [1] ++ (putUint64 (BitVec.ofNat 64 ss.leaves.length) ++ (ss.leaves.flatMap putUint64 ++
    (putUint64 (BitVec.ofNat 64 ss.labelBitmap.length) ++ (ss.labelBitmap.flatMap putUint64 ++
      (putUint64 (BitVec.ofNat 64 ss.labels.length) ++ ss.labels)))))

theorem DomainSet.writeBin_buffer (ss : DomainSet) : ss.writeBin bufferWrite [] = .ok ss.bytes := by
  unfold DomainSet.writeBin
  simp only [writeUint64Slice_buffer, bufferWrite, bind, Except.bind, DomainSet.bytes]
  simp

theorem readDomainSetBin_bytes {ss : DomainSet} {nodes : Nat} (hv : ValidBinary ss nodes)
    (hi : ss.childStart = buildChildIndex ss.labelBitmap) (few : ss.labels.length ≤ maxBinaryDomainLabels) (rest : List UInt8) :
    readDomainSetBin (ss.bytes ++ rest) = .ok (ss, rest) := by
  have hl := hv.labels
  have hs := hv.several
  have hlw := hv.leafWords
  have hbw := hv.bitmapWords
  have few' : ss.labels.length ≤ 16777216 := few
  have hc := (validateBinary_ok hv.ones).mpr hv
  unfold readDomainSetBin bytes
  simp only [append_assoc]
  refine bind_ok.mpr ⟨_, readFull_append (n := 1) (p := [1]) rfl _, failIf_bind.mpr ⟨by simp, ?_⟩⟩
  refine bind_ok.mpr ⟨_, readUint64Slice_append (by omega) (by simp only [maxBinaryDomainLabels]; omega) (by omega) _, ?_⟩
  refine bind_ok.mpr ⟨_, readUint64Slice_append (by omega) (by simp only [maxBinaryDomainLabels]; omega) (by omega) _, ?_⟩
  refine bind_ok.mpr ⟨_, readFull_append (length_putUint64 _) _, failIf_bind.mpr ⟨?_, ?_⟩⟩
  · rw [uint64_putUint64, toInt_ofNat_small (by omega)]
    omega
  · rw [uint64_putUint64, toInt_ofNat_small (by omega)]
    refine bind_ok.mpr ⟨_, readFull_append (p := ss.labels) rfl _, bind_ok.mpr ⟨(), hc, ?_⟩⟩
    rw [← hi]
    rfl

theorem lastShifted_of_holds {bs : List Bool} (hh : Holds bm bs) (full : bm.length = (bs.length + 63) / 64)
    (part : bs.length % 64 ≠ 0) : lastShifted bm (bs.length % 64) = .ok 0#64 := by
  have hl : bm.getLast? = some (bm[bm.length - 1]) := by
    rw [getLast?_eq_getElem?, getElem?_eq_getElem (by omega)]
  rw [lastShifted, hl]
  refine congrArg ok (BitVec.eq_of_getLsbD_eq fun j bound => ?_)
  rw [BitVec.getLsbD_ushiftRight, BitVec.getLsbD_zero]
  by_cases hi : bs.length % 64 + j < 64
  · have bit := hh.bits (bs.length + j)
    rw [getElem?_eq_none (by omega), bitAt, show (bs.length + j) / 64 = bm.length - 1 by omega,
      show (bs.length + j) % 64 = bs.length % 64 + j by omega, getElem?_eq_getElem (by omega)] at bit
    exact bit
  · exact BitVec.getLsbD_of_ge _ _ (by omega)

theorem exists_node {nodes : List (List (List UInt8))} {p : Nat} (hi : p < (nodes.flatMap nodeBits).length) :
    ∃ i k words, nodes[i]? = some words ∧ k ≤ (groups words).length ∧ p = offset groups nodes i + i + k := by
  induction nodes generalizing p with
  | nil => cases hi
  | cons words _ ih =>
    have width : (nodeBits words).length = (groups words).length + 1 := by simp [nodeBits]
    rw [flatMap_cons, length_append] at hi
    by_cases hf : p ≤ (groups words).length
    · exact ⟨0, p, words, rfl, hf, by simp⟩
    · obtain ⟨i, k, words', hh, hb, _⟩ := @ih (p - ((groups words).length + 1)) (by omega)
      refine ⟨i + 1, k, words', hh, hb, ?_⟩
      rw [offset_cons]
      omega

namespace Encodes

variable {ss : DomainSet} {keys : List (List UInt8)} {nodes : List (List (List UInt8))} (h : Encodes ss keys nodes)
include h

theorem length_nodeBits : (nodes.flatMap nodeBits).length = 2 * nodes.length - 1 := by
  have hl := (@nodeBits_before nodes _ le_rfl).1
  rw [take_length, offset_length] at hl
  have edges := h.laid.length_eq
  omega

theorem validBinary (hs : 2 ≤ nodes.length) : ValidBinary ss nodes.length := by
  have bits := h.length_nodeBits
  have hw := h.length_bitmap
  have hlw := h.length_leaves
  rw [bits] at hw
  have hlb : (nodes.map isLeaf).length = nodes.length := length_map _
  refine ⟨h.ones, hs, ?_, hw, fun hp => ?_, hlw, fun hp => ?_, ?_, fun i less => ?_, ?_, ?_⟩
  · rw [h.labels, length_map]
    exact h.laid.length_eq
  · rw [← bits] at hp hw ⊢
    exact lastShifted_of_holds h.bitmap hw hp
  · rw [← hlb] at hp hlw ⊢
    exact lastShifted_of_holds h.leaves hlw hp
  · rw [h.leaves.sum_onesCount (by omega)]
    exact (count_pos_iff.mpr (mem_of_getLast? h.last_leaf)).ne'
  · obtain ⟨j, k, _, hh, hb, eq⟩ := @exists_node nodes (i + 1) (by omega)
    have hq := h.laid.queued j (List.getElem?_eq_some_iff.mp hh).1
    rw [eq, h.onesBefore_eq hh hb]
    omega
  · obtain ⟨_, eq⟩ := h.bitmap_bits
    rw [onesBefore, eq, ← bits, take_left, count_nodeBits]
  · have hl := getLast?_nodeBits h.nodes_nonempty
    rw [getLast?_eq_getElem?, bits, show 2 * nodes.length - 1 - 1 = 2 * nodes.length - 2 by omega] at hl
    rw [h.bitmap.bits, hl]
    rfl

end Encodes

theorem key_ne_nil {path : List Label} (hs : Stored path) : key path ≠ [] := by
  obtain ⟨l, rest, rfl, hn⟩ := hs.first
  have hl : keyLabel l ≠ [] := by
    rw [keyLabel, if_neg (by simpa [dotWildcard] using hn)]
    exact reverseRunes_ne_nil (hs.labels l (by simp)) hn
  cases rest with
  | nil => simpa [key] using hl
  | cons =>
    rw [key, map_cons, map_cons]
    simp

/-- Writing a set that was built from a trie and reading it back gives the same set, and both give, each
once, the patterns of the trie. -/
theorem writeBin_readDomainSetBin {T : Type} {u : Unicode} {ops : List (Op T)} {t : DomainTrie T} (ran : run u {} ops = some t)
    {ss : DomainSet} (made : newDomainSet t = some ss) (few : ss.labels.length ≤ 2 ^ 24) (bitmap : Bitmap) :
    ∃ bytes, ss.writeBin bufferWrite [] = .ok bytes ∧
      ∃ ss', readDomainSetBin bytes = .ok (ss', []) ∧ ss'.leaves = ss.leaves ∧ ss'.labelBitmap = ss.labelBitmap ∧ ss'.labels = ss.labels ∧
        ∃ patterns, patterns.Perm (t.foreach.map Prod.fst) ∧ patterns.Nodup ∧
          ∀ {σ : Type} (f : σ → List UInt8 → σ × Bool) (s : σ),
            (∃ n, ∀ fuel, ss.foreach bitmap f (n + fuel) s = some (visit f s patterns).1) ∧
              ∃ n, ∀ fuel, ss'.foreach bitmap f (n + fuel) s = some (visit f s patterns).1 := by
  obtain ⟨nodes, he⟩ := encodes_newDomainSet (keys_nodup ran) made
  have hs : 2 ≤ nodes.length := by
    obtain ⟨w, _, eq⟩ := exists_cons_of_ne_nil (he.filled _ (mem_of_getElem? he.laid.root_eq))
    have mem : w ∈ sortedKeys t := by simp [eq]
    obtain ⟨_, ⟨e, _, set⟩, hsh⟩ := (mem_sortedKeys ran w).mp mem
    obtain ⟨c, w', hsp⟩ := exists_cons_of_ne_nil (key_ne_nil (stored_of_sets set))
    rw [hsh, hsp] at mem
    have hf := (mem_firsts (sortedKeys t) c).mpr ⟨w', mem⟩
    obtain ⟨g, edge, _⟩ := mem_map.mp hf
    obtain ⟨k, ht⟩ := mem_iff_getElem?.mp edge
    have hc := (List.getElem?_eq_some_iff.mp (he.laid.child he.laid.root_eq ht)).1
    omega
  have valid := he.validBinary hs
  have short := valid.short few
  have back := readDomainSetBin_bytes valid he.childStart few []
  rw [append_nil] at back
  obtain ⟨hp, hn⟩ := sortedKeys_patterns ran
  refine ⟨ss.bytes, ss.writeBin_buffer, ss, back, rfl, rfl, rfl, _, hp, hp.nodup_iff.mpr hn, fun f s => ?_⟩
  exact ⟨foreach_newDomainSet ran made bitmap short f s, foreach_newDomainSet ran made bitmap short f s⟩

theorem writeBin_readDomainSetBin_sample : ∃ t ss, run .asciiOnly {} sampleOps = some t ∧ newDomainSet t = some ss ∧
    ss.labels.length ≤ 2 ^ 24 ∧ ∃ bytes, ss.writeBin bufferWrite [] = .ok bytes ∧
      ∃ ss', readDomainSetBin bytes = .ok (ss', []) ∧ ss'.labels = ss.labels ∧
        ∃ patterns, patterns.Perm (t.foreach.map Prod.fst) ∧
          ∃ n, ∀ fuel, ss'.foreach .counting (fun l key => (l ++ [key], true)) (n + fuel) [] =
            some (visit (fun l key => (l ++ [key], true)) [] patterns).1 := by
  have hb : ((run .asciiOnly {} sampleOps).bind newDomainSet).map (fun ss => decide (ss.labels.length ≤ 2 ^ 24)) = some true := by
    decide +kernel
  obtain ⟨ss, eq, few⟩ := Option.map_eq_some_iff.mp hb
  obtain ⟨t, ran, hm⟩ := Option.bind_eq_some_iff.mp eq
  have hs := of_decide_eq_true few
  obtain ⟨bytes, hw, ss', hr, _, _, same, patterns, all, _, calls⟩ := writeBin_readDomainSetBin ran hm hs .counting
  exact ⟨t, ss, ran, hm, hs, bytes, hw, ss', hr, same, patterns, all, (calls _ []).2⟩

end AsterCore.Trie
