import AsterCore.DomainSet

namespace AsterCore.Trie

open BitWords SortedWords LevelOrder List Builder

/-- The first word ends at the node. -/
def isLeaf (words : List (List UInt8)) : Bool := words.head? = some []

/-- The bits of a node: a zero for each edge, and a one. -/
def nodeBits (words : List (List UInt8)) : List Bool := List.replicate (groups words).length false ++ [true]

/-- What the builder has written for the nodes it has been through. -/
structure Built (b : Builder) (nodes : List (List (List UInt8))) : Prop where
  labels : b.labels = (nodes.flatMap groups).map Prod.fst
  bitmap : Holds b.labelBitmap (nodes.flatMap nodeBits)
  lIdx : b.lIdx = (nodes.flatMap nodeBits).length
  leaves : Holds b.leaves (nodes.map isLeaf)

theorem built_start : Built {} [] := ⟨rfl, holds_nil, rfl, holds_nil⟩

theorem foldl_edge (gs : List (UInt8 × List (List UInt8))) {b : Builder} {bs : List Bool} (hh : Holds b.labelBitmap bs)
    (hi : b.lIdx = bs.length) : let b' := gs.foldl (fun b g => b.edge g.1) b
    b'.labels = b.labels ++ gs.map Prod.fst ∧ b'.leaves = b.leaves ∧
      Holds b'.labelBitmap (bs ++ replicate gs.length false) ∧ b'.lIdx = bs.length + gs.length := by
  induction gs generalizing b bs with
  | nil => exact ⟨by simp, rfl, by simpa using hh, by simpa using hi⟩
  | cons g _ ih =>
    have hn : Holds (b.edge g.1).labelBitmap (bs ++ [false]) := by
      show Holds (setBit b.labelBitmap b.lIdx false) _
      rw [hi]
      exact hh.set false
    obtain ⟨hla, hl, hb, lIdx⟩ := ih hn (by simp [edge, hi])
    refine ⟨?_, hl, ?_, ?_⟩
    · rw [foldl_cons, hla]
      simp [edge]
    · rw [length_cons, replicate_succ]
      simpa using hb
    · rw [foldl_cons, lIdx, length_append, length_singleton, length_cons]
      omega

variable {nodes : List (List (List UInt8))}

theorem Built.node {b : Builder} (h : Built b nodes) (words : List (List UInt8)) :
    Built (b.node nodes.length words) (nodes ++ [words]) := by
  have leaf : Holds (if words.head? = some [] then setBit b.leaves nodes.length true else b.leaves)
      (nodes.map isLeaf ++ [isLeaf words]) := by
    have set := h.leaves.set true
    rw [length_map] at set
    by_cases he : words.head? = some []
    · simpa only [isLeaf, he, if_true, decide_true] using set
    · simpa only [isLeaf, he, if_false, decide_false] using h.leaves.skip
  have ha : ∃ b₁ : Builder, b₁ = (if words.head? = some [] then { b with leaves := setBit b.leaves nodes.length true } else b) ∧
      b₁.labels = b.labels ∧ b₁.labelBitmap = b.labelBitmap ∧ b₁.lIdx = b.lIdx ∧
      b₁.leaves = if words.head? = some [] then setBit b.leaves nodes.length true else b.leaves := by
    refine ⟨_, rfl, ?_⟩
    split <;> exact ⟨rfl, rfl, rfl, rfl⟩
  obtain ⟨b₁, eq, hla₁, hb₁, lIdx₁, hl₁⟩ := ha
  obtain ⟨hl, hle, hb, lIdx⟩ := @foldl_edge (groups words) b₁ (nodes.flatMap nodeBits)
    (hb₁ ▸ h.bitmap) (lIdx₁.trans h.lIdx)
  have last := hb.set true
  rw [length_append, length_replicate, ← lIdx] at last
  have bits : (nodes ++ [words]).flatMap nodeBits =
      nodes.flatMap nodeBits ++ replicate (groups words).length false ++ [true] := by
    simp [nodeBits]
  unfold Builder.node
  rw [← eq]
  refine ⟨?_, ?_, ?_, ?_⟩
  · show ((groups words).foldl (fun b g => b.edge g.1) b₁).labels = _
    rw [hl, hla₁, h.labels]
    simp
  · rw [bits]
    exact last
  · show ((groups words).foldl (fun b g => b.edge g.1) b₁).lIdx + 1 = _
    rw [lIdx, bits]
    simp
    omega
  · show Holds ((groups words).foldl (fun b g => b.edge g.1) b₁).leaves _
    rw [hle, hl₁, map_append]
    exact leaf

/-- The loop goes through the nodes in breadth-first order. -/
theorem Built.loop {b : Builder} (h : Built b nodes) (n : Nat) (queue : List (List (List UInt8))) :
    Built (loop n nodes.length queue b) (nodes ++ layout groups n queue) := by
  induction n generalizing b nodes queue with
  | zero => simpa [loop, layout] using h
  | succ _ ih =>
    cases queue with
    | nil => simpa [loop, layout] using h
    | cons words queue =>
      have hn := ih (h.node words) (queue ++ (groups words).map Prod.snd)
      simpa [loop, layout] using hn

theorem childIndex_replicate (k : Nat) (bits : List Bool) (edge : Nat) :
    childIndex (List.replicate k false ++ bits) edge = childIndex bits (edge + k) := by
  induction k generalizing edge with
  | zero => rfl
  | succ _ ih =>
    rw [replicate_succ, cons_append, childIndex, ih]
    congr 1
    omega

theorem childIndex_zeros (k edge : Nat) : childIndex (List.replicate k false) edge = [] := by
  have := childIndex_replicate k [] edge
  rw [append_nil] at this
  rw [this]
  rfl

/-- The entry for each node is the number of edges up to its end. -/
theorem getElem?_childIndex (nodes : List (List (List UInt8))) (pad edge i : Nat) :
    (childIndex (nodes.flatMap nodeBits ++ List.replicate pad false) edge)[i]? =
      if i < nodes.length then some (edge + offset groups nodes (i + 1)) else none := by
  induction nodes generalizing edge i with
  | nil => simp [childIndex_zeros]
  | cons words nodes ih =>
    have hf : childIndex ((words :: nodes).flatMap nodeBits ++ replicate pad false) edge =
        (edge + (groups words).length) ::
          childIndex (nodes.flatMap nodeBits ++ replicate pad false) (edge + (groups words).length) := by
      rw [flatMap_cons, nodeBits, append_assoc, append_assoc, childIndex_replicate]
      rfl
    rw [hf]
    cases i with
    | zero => simp [offset]
    | succ i =>
      rw [getElem?_cons_succ, ih, offset_cons, length_cons]
      by_cases hi : i < nodes.length
      · rw [if_pos hi, if_pos (by omega)]
        congr 1
        omega
      · rw [if_neg hi, if_neg (by omega)]

theorem count_nodeBits (nodes : List (List (List UInt8))) : (nodes.flatMap nodeBits).count true = nodes.length := by
  induction nodes with
  | nil => rfl
  | cons _ _ ih =>
    rw [flatMap_cons, count_append, nodeBits]
    simp [count_replicate]
    omega

theorem getLast?_nodeBits (hs : nodes ≠ []) : (nodes.flatMap nodeBits).getLast? = .some true := by
  obtain ⟨_, _, rfl⟩ := eq_nil_or_concat nodes |>.resolve_left hs
  simp [nodeBits]

/-- The set describes the nodes: their labels, where their edges start, and which are leaves. -/
structure Encodes (ss : DomainSet) (keys : List (List UInt8)) (nodes : List (List (List UInt8))) : Prop where
  laid : Laid groups keys nodes
  sorted : ∀ words ∈ nodes, Sorted words
  filled : ∀ words ∈ nodes, words ≠ []
  labels : ss.labels = (nodes.flatMap groups).map Prod.fst
  bitmap : Holds ss.labelBitmap (nodes.flatMap nodeBits)
  leaves : Holds ss.leaves (nodes.map isLeaf)
  childStart : ss.childStart = buildChildIndex ss.labelBitmap

theorem encodes_newDomainSet {T : Type} {t : DomainTrie T} {ss : DomainSet} (hd : (t.foreach.map fun e => domainKey e.1).Nodup)
    (hm : newDomainSet t = some ss) : ∃ nodes, Encodes ss (sortedKeys t) nodes := by
  have hs : Sorted (sortedKeys t) := sorted_insertionSort hd
  unfold newDomainSet at hm
  split at hm <;> cases hm
  next key keys eq =>
    have hb := built_start.loop (weight (key :: keys)) [key :: keys]
    rw [eq] at hs ⊢
    refine ⟨layout groups (weight (key :: keys)) [key :: keys], laid_layout weight_groups le_rfl, ?_, ?_, hb.labels,
      hb.bitmap, hb.leaves, rfl⟩
    · refine forall_layout (fun words ho g mem => group_sorted ho mem) fun words mem => ?_
      rw [mem_singleton.mp mem]
      exact hs
    · refine forall_layout (p := fun words => words ≠ []) (fun words _ g mem => group_nonempty mem) fun words mem => ?_
      rw [mem_singleton.mp mem]
      simp

namespace Encodes

variable {ss : DomainSet} {keys : List (List UInt8)} {nodes : List (List (List UInt8))} (h : Encodes ss keys nodes)
include h

theorem nodes_nonempty : nodes ≠ [] := by
  intro he
  have := h.laid.length_eq
  rw [he] at this
  simp at this

/-- The last node is a leaf: it has a word, and no word goes on. -/
theorem last_leaf : (nodes.map isLeaf).getLast? = some true := by
  obtain ⟨_, last, eq⟩ := (eq_nil_or_concat nodes).resolve_left h.nodes_nonempty
  have hf : nodes.getLast? = some last := by simp [eq]
  have hn := h.laid.last_children hf
  have mem : last ∈ nodes := by simp [eq]
  obtain ⟨word, _, hh⟩ := exists_cons_of_ne_nil (h.filled last mem)
  have he : word = [] := by
    cases word with
    | nil => rfl
    | cons c w =>
      have := (mem_firsts last c).mpr ⟨w, by simp [hh]⟩
      rw [hn] at this
      cases this
  rw [getLast?_map, hf, hh, he]
  rfl

theorem length_leaves : ss.leaves.length = (nodes.length + 63) / 64 := by
  have := h.leaves.length_eq h.last_leaf
  rwa [length_map] at this

theorem length_bitmap : ss.labelBitmap.length = ((nodes.flatMap nodeBits).length + 63) / 64 :=
  h.bitmap.length_eq (getLast?_nodeBits h.nodes_nonempty)

theorem getBit_leaves {i : Nat} {words : List (List UInt8)} (hh : nodes[i]? = some words) :
    getBit ss.leaves i = some (isLeaf words) := by
  have bound := (List.getElem?_eq_some_iff.mp hh).1
  have hl := h.length_leaves
  rw [getBit_eq (by omega), h.leaves.bits, getElem?_map, hh]
  rfl

theorem ones : (ss.labelBitmap.map onesCount).sum = nodes.length := by
  have hl := h.length_bitmap
  rw [h.bitmap.sum_onesCount (by omega), count_nodeBits]

theorem getElem?_childStart {i : Nat} (bound : i ≤ nodes.length) : ss.childStart[i]? = some (offset groups nodes i) := by
  have hl := h.length_bitmap
  have hp := length_pos_iff.mpr h.nodes_nonempty
  rw [h.childStart, buildChildIndex, h.ones, if_neg (by omega), h.bitmap.flatMap_wordBits (by omega)]
  cases i with
  | zero => rfl
  | succ =>
    rw [List.getElem?_cons_succ, getElem?_childIndex, if_pos (by omega), Nat.zero_add]

theorem length_childStart : 2 ≤ ss.childStart.length := by
  have hp := List.length_pos_iff.mpr h.nodes_nonempty
  have one := h.getElem?_childStart (i := 1) (by omega)
  have := (List.getElem?_eq_some_iff.mp one).1
  omega

end Encodes

end AsterCore.Trie
