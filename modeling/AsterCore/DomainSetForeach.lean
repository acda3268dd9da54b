import Mathlib.Algebra.Order.BigOperators.Group.List
import Mathlib.Algebra.Order.Group.Nat
import AsterCore.DomainSetLayout
import AsterCore.DomainKeys

namespace AsterCore.Trie

open BitWords SortedWords LevelOrder List

/-- The ones before the `i`-th bit. -/
def onesBefore (bm : List (BitVec 64)) (i : Nat) : Nat := ((bm.flatMap wordBits).take i).count true

/-- `Rank64` and `Select32R64` of the package `bitmap`, with the index that `IndexSelect32R64` makes of the bitmap. They give the
ones before a bit of the bitmap and the place of a one that is there, when the bits can be counted with 32 bits. -/
structure Bitmap where
  rank64 : List (BitVec 64) → Nat → Option Nat
  select32R64 : List (BitVec 64) → Nat → Option Nat
  rank : ∀ bm i, bm.length ≤ 2 ^ 25 → i < 64 * bm.length → rank64 bm i = some (onesBefore bm i)
  select : ∀ bm i p, bm.length ≤ 2 ^ 25 → selectOne (bm.flatMap wordBits) i = some p → select32R64 bm i = some p

/-- Counting bit by bit. -/
def Bitmap.counting : Bitmap where
  rank64 bm i := if i < 64 * bm.length then some (onesBefore bm i) else none
  select32R64 bm i := selectOne (bm.flatMap wordBits) i
  rank _ _ _ inside := if_pos inside
  select _ _ _ _ found := found

def countZeros (bitmap : Bitmap) (bm : List (BitVec 64)) (i : Nat) : Option Nat := (bitmap.rank64 bm i).map (i - ·)

def selectIthOne (bitmap : Bitmap) (bm : List (BitVec 64)) (i : Nat) : Option Nat := bitmap.select32R64 bm i

def trimSuffix (s suffix : List UInt8) : List UInt8 := if suffix <:+ s then s.take (s.length - suffix.length) else s

namespace DomainSet

variable {σ : Type} (bitmap : Bitmap) (ss : DomainSet) (f : σ → List UInt8 → σ × Bool)

mutual

/-- The inner function of `keys`, with the key that leads to the node. The callback says whether to go on.
Nothing stands for an index out of range. -/
def traverse : Nat → List UInt8 → Nat → Nat → σ → Option (σ × Bool)
  | 0, _, _, _, _ => none
  | fuel + 1, currentKey, nodeId, bmIdx, s =>
    (getBit ss.leaves nodeId).bind fun leaf =>
      let (s, more) := if leaf then f s currentKey else (s, true)
      if more then traverseFrom fuel currentKey nodeId bmIdx s else some (s, false)

def traverseFrom : Nat → List UInt8 → Nat → Nat → σ → Option (σ × Bool)
  | 0, _, _, _, _ => none
  | fuel + 1, currentKey, nodeId, bmIdx, s =>
    (getBit ss.labelBitmap bmIdx).bind fun one =>
      if one then some (s, true)
      else
        (if nodeId ≤ bmIdx then ss.labels[bmIdx - nodeId]? else none).bind fun nextLabel =>
          (countZeros bitmap ss.labelBitmap (bmIdx + 1)).bind fun nextNodeId =>
            (selectIthOne bitmap ss.labelBitmap (nextNodeId - 1)).bind fun i =>
              (traverse fuel (currentKey ++ [nextLabel]) nextNodeId (i + 1) s).bind fun (s, more) =>
                if more then traverseFrom fuel currentKey nodeId (bmIdx + 1) s else some (s, false)

end

def keys (fuel : Nat) (s : σ) : Option σ := (ss.traverse bitmap f fuel [] 0 0 s).map Prod.fst

/-- `Foreach`, with the state that the callback keeps. -/
def foreach (fuel : Nat) (s : σ) : Option σ :=
  ss.keys bitmap (fun s key => f s (reverseRunes (trimSuffix key complexWildcard))) fuel s

end DomainSet

/-- The calls of a callback on a list, up to the first that says to stop. -/
def visit {σ α : Type} (f : σ → α → σ × Bool) : σ → List α → σ × Bool
  | s, [] => (s, true)
  | s, a :: as => if (f s a).2 then visit f (f s a).1 as else f s a

theorem visit_append {σ α : Type} (f : σ → α → σ × Bool) (s : σ) (as bs : List α) :
    visit f s (as ++ bs) = if (visit f s as).2 then visit f (visit f s as).1 bs else visit f s as := by
  induction as generalizing s with
  | nil => rfl
  | cons _ _ ih =>
    rw [cons_append, visit, visit]
    split
    · exact ih _
    · rfl

theorem visit_map {σ α β : Type} (f : σ → β → σ × Bool) (g : α → β) (s : σ) (as : List α) :
    visit f s (as.map g) = visit (fun s a => f s (g a)) s as := by
  induction as generalizing s with
  | nil => rfl
  | cons _ _ ih =>
    rw [map_cons, visit, visit, ih]

theorem nodeBits_before {nodes : List (List (List UInt8))} {i : Nat} (hi : i ≤ nodes.length) :
    ((nodes.take i).flatMap nodeBits).length = offset groups nodes i + i ∧ ((nodes.take i).flatMap nodeBits).count true = i := by
  refine ⟨?_, ?_⟩
  · induction nodes generalizing i with
    | nil => simp_all
    | cons _ _ ih =>
      cases i with
      | zero => rfl
      | succ =>
        rw [take_succ_cons, flatMap_cons, length_append, ih (by simpa using hi), offset_cons, nodeBits]
        simp
        omega
  · rw [count_nodeBits, length_take]
    omega

theorem nodeBits_split {nodes : List (List (List UInt8))} {i : Nat} {words : List (List UInt8)} (hh : nodes[i]? = some words) :
    nodes.flatMap nodeBits = (nodes.take i).flatMap nodeBits ++ (nodeBits words ++ (nodes.drop (i + 1)).flatMap nodeBits) := by
  obtain ⟨_, eq⟩ := List.getElem?_eq_some_iff.mp hh
  rw [← flatMap_cons, ← eq, getElem_cons_drop, ← flatMap_append, take_append_drop]

namespace Encodes

variable {ss : DomainSet} {keys : List (List UInt8)} {nodes : List (List (List UInt8))} (h : Encodes ss keys nodes)
include h

theorem bitmap_bits : ∃ pad, ss.labelBitmap.flatMap wordBits = nodes.flatMap nodeBits ++ List.replicate pad false := by
  have hl := h.length_bitmap
  exact ⟨_, h.bitmap.flatMap_wordBits (by omega)⟩

variable {i k : Nat} {words : List (List UInt8)}

section

variable (here : nodes[i]? = some words)

include here

theorem getBit_bitmap (hb : k ≤ (groups words).length) :
    getBit ss.labelBitmap (offset groups nodes i + i + k) = some (decide (k = (groups words).length)) := by
  have hi := (List.getElem?_eq_some_iff.mp here).1
  obtain ⟨long, _⟩ := nodeBits_before (Nat.le_of_lt hi)
  have hs := nodeBits_split here
  have ht := congrArg length hs
  have width : (nodeBits words).length = (groups words).length + 1 := by simp [nodeBits]
  rw [length_append, length_append] at ht
  have length := h.length_bitmap
  rw [getBit_eq (by omega), h.bitmap.bits, hs, getElem?_append_right (by omega), long,
    getElem?_append_left (by omega), Nat.add_sub_cancel_left, nodeBits]
  rcases Nat.lt_or_eq_of_le hb with hl | rfl
  · rw [getElem?_append_left (by simpa using hl), getElem?_replicate_of_lt hl]
    simp [Nat.ne_of_lt hl]
  · simp

theorem onesBefore_eq (hb : k ≤ (groups words).length) : onesBefore ss.labelBitmap (offset groups nodes i + i + k) = i := by
  have hi := (List.getElem?_eq_some_iff.mp here).1
  obtain ⟨hl, ho⟩ := nodeBits_before (Nat.le_of_lt hi)
  obtain ⟨_, bits⟩ := h.bitmap_bits
  rw [onesBefore, bits, nodeBits_split here, append_assoc, take_append, hl, count_append,
    take_of_length_le (by omega), ho,
    append_assoc, nodeBits, append_assoc, take_append_of_le_length (by simpa using hb)]
  simp [count_replicate]

end

variable (bitmap : Bitmap) (short : ss.labelBitmap.length ≤ 2 ^ 25)

include short

theorem countZeros_eq (here : nodes[i]? = some words) (hb : k < (groups words).length) :
    countZeros bitmap ss.labelBitmap (offset groups nodes i + i + k + 1) = some (offset groups nodes i + k + 1) := by
  have ho := h.onesBefore_eq here (k := k + 1) hb
  rw [← Nat.add_assoc] at ho
  have inside : offset groups nodes i + i + k + 1 < 64 * ss.labelBitmap.length := by
    obtain ⟨long, _⟩ := nodeBits_before (Nat.le_of_lt (List.getElem?_eq_some_iff.mp here).1)
    have ht := congrArg length (nodeBits_split here)
    have width : (nodeBits words).length = (groups words).length + 1 := by simp [nodeBits]
    rw [length_append, length_append] at ht
    have length := h.length_bitmap
    omega
  rw [countZeros, bitmap.rank _ _ short inside, Option.map_some, ho]
  congr 1
  omega

theorem selectIthOne_eq (hi : i < nodes.length) :
    selectIthOne bitmap ss.labelBitmap i = some (offset groups nodes (i + 1) + i) := by
  refine bitmap.select _ _ _ short ?_
  obtain ⟨hl, ho⟩ := nodeBits_before (Nat.le_of_lt hi)
  obtain ⟨_, hb⟩ := h.bitmap_bits
  have hh := getElem?_eq_getElem hi
  have hz : ∀ (k : Nat) (rest : List Bool), selectOne (replicate k false ++ true :: rest) 0 = some k := by
    intro k _
    rw [selectOne_append (by simp [count_replicate])]
    simp [selectOne]
  rw [hb, nodeBits_split hh, append_assoc, selectOne_append (by omega), ho, Nat.sub_self, append_assoc,
    nodeBits, append_assoc]
  rw [singleton_append, hz, hl, offset_succ groups hh]
  simp
  omega

theorem traverseFrom_eq {σ : Type} (f : σ → List UInt8 → σ × Bool) (hh : nodes[i]? = some words)
    (hbe : ∀ {j : Nat} {g : UInt8 × List (List UInt8)}, g ∈ groups words → nodes[j]? = some g.2 → ∀ (currentKey : List UInt8) (s : σ),
      ∃ n, ∀ fuel, ss.traverse bitmap f (n + fuel) currentKey j (offset groups nodes j + j) s =
        some (visit f s (g.2.map (currentKey ++ ·))))
    (gs : List (UInt8 × List (List UInt8))) (hr : (groups words).drop k = gs) (hb : k ≤ (groups words).length)
    (currentKey : List UInt8) (s : σ) :
    ∃ n, ∀ fuel, ss.traverseFrom bitmap f (n + fuel) currentKey i (offset groups nodes i + i + k) s =
      some (visit f s (gs.flatMap fun g => g.2.map fun w => currentKey ++ g.1 :: w)) := by
  induction gs generalizing k s with
  | nil =>
    have last : k = (groups words).length := Nat.le_antisymm hb (drop_eq_nil_iff.mp hr)
    refine ⟨1, fun fuel => ?_⟩
    rw [Nat.add_comm, DomainSet.traverseFrom, h.getBit_bitmap hh hb]
    simp [last, visit]
  | cons g gs ih =>
    have less : k < (groups words).length := by
      by_contra ho
      rw [drop_eq_nil_iff.mpr (by omega)] at hr
      cases hr
    have he : (groups words)[k]? = some g := by
      rw [← head?_drop, hr]
      rfl
    have next : (groups words).drop (k + 1) = gs := by rw [← drop_drop, hr, drop_one, tail_cons]
    have hc := h.laid.child hh he
    have hi := (List.getElem?_eq_some_iff.mp hc).1
    have hl : ss.labels[offset groups nodes i + k]? = some g.1 := by
      rw [h.labels]
      exact LevelOrder.getElem?_labels hh he
    obtain ⟨n₁, hf⟩ := hbe (mem_of_getElem? he) hc (currentKey ++ [g.1]) s
    obtain ⟨n₂, hla⟩ := ih next less (visit f s (g.2.map fun w => currentKey ++ g.1 :: w)).1
    have hk_eq : g.2.map ((currentKey ++ [g.1]) ++ ·) = g.2.map fun w => currentKey ++ g.1 :: w := by simp
    rw [hk_eq] at hf
    refine ⟨n₁ + n₂ + 1, fun fuel => ?_⟩
    rw [show n₁ + n₂ + 1 + fuel = n₁ + (n₂ + fuel) + 1 by omega, DomainSet.traverseFrom, h.getBit_bitmap hh hb]
    simp only [Option.bind_some, decide_eq_true_eq, Nat.ne_of_lt less, if_false]
    rw [if_pos (by omega), show offset groups nodes i + i + k - i = offset groups nodes i + k by omega, hl]
    rw [h.countZeros_eq bitmap short hh less]
    simp only [Option.bind_some]
    rw [Nat.add_sub_cancel, h.selectIthOne_eq bitmap short (by omega)]
    simp only [Option.bind_some]
    rw [show offset groups nodes (offset groups nodes i + k + 1) + (offset groups nodes i + k) + 1 =
      offset groups nodes (offset groups nodes i + k + 1) + (offset groups nodes i + k + 1) by omega, hf (n₂ + fuel)]
    simp only [Option.bind_some]
    rw [flatMap_cons, visit_append]
    split
    · rw [show n₁ + (n₂ + fuel) = n₂ + (n₁ + fuel) by omega, Nat.add_assoc _ k 1, hla]
    next hs =>
      refine congrArg some (Prod.ext rfl ?_)
      simpa using hs

theorem traverse_eq {σ : Type} (f : σ → List UInt8 → σ × Bool) (m : Nat) (hh : nodes[i]? = some words)
    (hli : weight words ≤ m) (currentKey : List UInt8) (s : σ) :
    ∃ n, ∀ fuel, ss.traverse bitmap f (n + fuel) currentKey i (offset groups nodes i + i) s =
      some (visit f s (words.map (currentKey ++ ·))) := by
  induction m generalizing i words currentKey s with
  | zero =>
    unfold weight at hli
    omega
  | succ _ ih =>
    have hb : ∀ {j : Nat} {g : UInt8 × List (List UInt8)}, g ∈ groups words → nodes[j]? = some g.2 → ∀ (currentKey : List UInt8) (s : σ),
        ∃ n, ∀ fuel, ss.traverse bitmap f (n + fuel) currentKey j (offset groups nodes j + j) s =
          some (visit f s (g.2.map (currentKey ++ ·))) := by
      intro j g mem ht currentKey s
      have hlg := le_sum_of_mem (mem_map.mpr ⟨g, mem, rfl⟩ : weight g.2 ∈ (groups words).map fun g => weight g.2)
      have all := weight_groups words
      exact ih ht (by omega) currentKey s
    have ho := words_eq (h.sorted words (mem_of_getElem? hh))
    have split : words.map (currentKey ++ ·) = (if isLeaf words then [currentKey] else []) ++
        (groups words).flatMap fun g => g.2.map fun w => currentKey ++ g.1 :: w := by
      conv_lhs => rw [ho]
      rw [map_append, map_flatMap]
      congr 1
      · simp only [isLeaf, decide_eq_true_eq]
        split <;> simp
      · simp only [map_map]
        rfl
    have loop := fun s => h.traverseFrom_eq bitmap short f hh hb (groups words) (k := 0) rfl (Nat.zero_le _) currentKey s
    obtain ⟨n, hl⟩ := loop (visit f s (if isLeaf words then [currentKey] else [])).1
    refine ⟨n + 1, fun fuel => ?_⟩
    rw [show n + 1 + fuel = n + fuel + 1 by omega, DomainSet.traverse, h.getBit_leaves hh, split, visit_append]
    simp only [Option.bind_some]
    have hs : (if isLeaf words then f s currentKey else (s, true)) = visit f s (if isLeaf words then [currentKey] else []) := by
      split
      · rw [visit]
        split
        next hm => exact Prod.ext rfl hm
        · rfl
      · rfl
    rw [hs]
    generalize visit f s (if isLeaf words then [currentKey] else []) = r at hl
    split
    · exact hl fuel
    next stop =>
      refine congrArg some (Prod.ext rfl ?_)
      simpa using stop

theorem keys_eq {σ : Type} (f : σ → List UInt8 → σ × Bool) (s : σ) :
    ∃ n, ∀ fuel, ss.keys bitmap f (n + fuel) s = some (visit f s keys).1 := by
  obtain ⟨n, run⟩ := h.traverse_eq bitmap short f _ h.laid.root_eq le_rfl [] s
  refine ⟨n, fun fuel => ?_⟩
  rw [offset_zero] at run
  rw [DomainSet.keys, run fuel]
  simp

end Encodes

theorem not_mem_joinDomain {b : UInt8} (ho : b ≠ domainStep) {ls : List Label} (hn : ∀ l ∈ ls, b ∉ l) :
    b ∉ joinDomain ls := by
  induction ls with
  | nil => simp [joinDomain]
  | cons l ls ih =>
    have hr := ih fun m mem => hn m (by simp [mem])
    by_cases hm : ls = []
    · subst hm
      simpa [joinDomain] using hn l (by simp)
    · rw [joinDomain_cons hm]
      simp [hn l (by simp), ho, hr]

theorem reverseRunes_trimSuffix {path : List Label} (hs : Stored path) :
    reverseRunes (trimSuffix (domainKey (joinDomain path.reverse)) complexWildcard) = joinDomain path.reverse := by
  obtain ⟨css, eq⟩ := exists_texts fun l mem => (hs.labels l mem).text
  have ht : joinDomain path.reverse = encode (['.'].intercalate css.reverse) := by
    rw [eq, encode_intercalate, map_reverse]
    rfl
  have hp := not_mem_joinDomain (by decide) fun l mem => (hs.labels l (mem_reverse.mp mem)).noPlus
  rw [ht] at hp ⊢
  generalize ['.'].intercalate css.reverse = cs at hp ⊢
  unfold domainKey trimSuffix
  split
  · have hm : reverseRunes (complexWildcard ++ encode cs) = encode cs.reverse ++ complexWildcard := by
      have : complexWildcard ++ encode cs = encode ('+' :: cs) := rfl
      rw [this, reverseRunes_encode, reverse_cons, encode_append]
      rfl
    rw [hm, if_pos (suffix_append _ _), length_append, Nat.add_sub_cancel, take_left, reverseRunes_encode,
      reverse_reverse]
  · have hu : ¬ complexWildcard <:+ encode cs.reverse := by
      intro he
      have hi : 43 ∈ encode cs.reverse := he.subset (by simp [complexWildcard])
      rw [mem_encode_ascii (by decide), mem_reverse, ← mem_encode_ascii (by decide)] at hi
      exact hp hi
    rw [reverseRunes_encode, if_neg hu, reverseRunes_encode, reverse_reverse]

theorem sortedKeys_patterns {T : Type} {u : Unicode} {ops : List (Op T)} {t : DomainTrie T} (ran : run u {} ops = some t) :
    ((sortedKeys t).map fun key => reverseRunes (trimSuffix key complexWildcard)).Perm (t.foreach.map Prod.fst) ∧
      (t.foreach.map Prod.fst).Nodup := by
  have hd := run_root_distinct ran
  have hb : ∀ e ∈ t.foreach, reverseRunes (trimSuffix (domainKey e.1) complexWildcard) = e.1 := by
    intro e mem
    obtain ⟨⟨items, v⟩, ht, rfl⟩ := mem_map.mp mem
    have hs := run_stored ran ((DomainTrie.mem_recursion hd items v).mp ht).2
    have := reverseRunes_trimSuffix hs
    rwa [reverse_reverse] at this
  have hna : (t.foreach.map fun e => domainKey e.1).map (fun key => reverseRunes (trimSuffix key complexWildcard)) =
      t.foreach.map Prod.fst := by
    rw [map_map]
    refine map_congr_left fun e mem => ?_
    rw [Function.comp_apply, hb e mem]
  refine ⟨?_, ?_⟩
  · rw [← hna]
    exact (perm_insertionSort (· ≤ ·) _).map _
  · have hn := keys_nodup ran
    rw [show (fun e : List UInt8 × T => domainKey e.1) = domainKey ∘ Prod.fst from rfl, ← map_map] at hn
    exact hn.of_map _

theorem foreach_newDomainSet {T σ : Type} {u : Unicode} {ops : List (Op T)} {t : DomainTrie T} (ran : run u {} ops = some t)
    {ss : DomainSet} (hm : newDomainSet t = some ss) (bitmap : Bitmap) (short : ss.labelBitmap.length ≤ 2 ^ 25)
    (f : σ → List UInt8 → σ × Bool) (s : σ) :
    ∃ n, ∀ fuel, ss.foreach bitmap f (n + fuel) s =
      some (visit f s ((sortedKeys t).map fun key => reverseRunes (trimSuffix key complexWildcard))).1 := by
  obtain ⟨_, he⟩ := encodes_newDomainSet (keys_nodup ran) hm
  rw [visit_map]
  exact he.keys_eq bitmap short _ s

end AsterCore.Trie
