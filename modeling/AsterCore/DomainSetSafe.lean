import AsterCore.DomainHas
import AsterCore.DomainSetBin

namespace AsterCore.Trie

open BitWords SortedWords LevelOrder GoBinary List Option DomainSet

structure Indexed (ss : DomainSet) (nodes : Nat) : Prop where
  labels : nodes = ss.labels.length + 1
  several : 2 ≤ nodes
  childStart : ∀ i, i ≤ nodes → ∃ e, ss.childStart[i]? = some e ∧ e ≤ ss.labels.length
  leaves : ∀ i, i < nodes → ∃ leaf, getBit ss.leaves i = some leaf

def Halts (ss : DomainSet) (key : List UInt8) (s : HasState) (stack : List WildcardCursor) : Prop :=
  Reaches ss key s (.done true) ∨ Reaches ss key s (.backtrack stack)

variable {key : List UInt8} {s : HasState} {stack : List WildcardCursor}

variable {ss : DomainSet}

theorem Halts.after {s' : HasState} (hr : Reaches ss key s s') (hh : Halts ss key s' stack) : Halts ss key s stack :=
  hh.imp hr.trans hr.trans

theorem Halts.then {stack' : List WildcardCursor} (hf : Halts ss key s stack')
    (hs : Halts ss key (.backtrack stack') stack) : Halts ss key s stack := by
  rcases hf with hd | hb
  · exact .inl hd
  · exact hs.after hb

theorem halts_leaf {ss : DomainSet} {leaf : Bool}
    (hn : ss.step key s = some (if leaf then .done true else .backtrack stack)) (running : ∀ b, s ≠ .done b) :
    Halts ss key s stack := by
  cases leaf with
  | true => exact .inl (.step hn running)
  | false => exact .inr (.step hn running)

theorem DomainSet.scan_inside (c : UInt8) (i : Nat) {n e : Nat} (hi : e + n ≤ ss.labels.length) (stack : List WildcardCursor) :
    ss.scan c i n e stack = some .accept ∨
      ∃ cursors : List WildcardCursor, (∀ cursor ∈ cursors, cursor.index = i ∧ cursor.nodeId < ss.labels.length + 1) ∧
        (ss.scan c i n e stack = some (.missing (cursors ++ stack)) ∨
          ∃ e', e' < ss.labels.length ∧ ss.scan c i n e stack = some (.found e' (cursors ++ stack))) := by
  induction n generalizing e stack with
  | zero => exact .inr ⟨[], by simp, .inl rfl⟩
  | succ _ ih =>
    have here : ss.labels[e]? = some ss.labels[e] := getElem?_eq_getElem (by omega)
    simp only [scan, here]
    split
    · exact .inl rfl
    · split
      · rcases ih (e := e + 1) (by omega) (⟨e + 1, i⟩ :: stack) with ha | ⟨cursors, all, hr⟩
        · exact .inl ha
        · refine .inr ⟨cursors ++ [⟨e + 1, i⟩], ?_, ?_⟩
          · intro cursor mem
            rcases mem_append.mp mem with there | new
            · exact all cursor there
            · rw [mem_singleton.mp new]
              exact ⟨rfl, by simp; omega⟩
          · rw [append_assoc]
            exact hr
      · split
        · exact .inr ⟨[], by simp, .inr ⟨e, by omega, rfl⟩⟩
        · exact ih (by omega) stack

theorem DomainSet.findStep_inside {ss : DomainSet} {n e : Nat} (hi : e + n ≤ ss.labels.length) :
    ss.findStep n e = some none ∨ ∃ e', e' < e + n ∧ ss.labels[e']? = some domainStep ∧ ss.findStep n e = some (some e') := by
  induction n generalizing e with
  | zero => exact .inl rfl
  | succ _ ih =>
    have hh : ss.labels[e]? = some ss.labels[e] := getElem?_eq_getElem (by omega)
    simp only [findStep, hh]
    split
    next hs => exact .inr ⟨e, by omega, by rw [hh, hs], rfl⟩
    · rcases ih (e := e + 1) (by omega) with none | ⟨e', bound, hl, hf⟩
      · exact .inl none
      · exact .inr ⟨e', by omega, hl, hf⟩

namespace Indexed

variable {ss : DomainSet} {nodes : Nat} (h : Indexed ss nodes)
include h

theorem halts_cursors {key : List UInt8} {idx : Nat} (within : idx ≤ key.length)
    (later : ∀ {nodeId e idx' : Nat}, nodeId < nodes → idx < idx' → idx' ≤ key.length →
      ∀ stack, Halts ss key (.walk nodeId e idx' stack) stack)
    {cursors : List WildcardCursor} (all : ∀ cursor ∈ cursors, cursor.index = idx ∧ cursor.nodeId < nodes)
    (stack : List WildcardCursor) : Halts ss key (.backtrack (cursors ++ stack)) stack := by
  induction cursors with
  | nil => exact .inr (.refl ss key _)
  | cons cursor cursors ih =>
    have rest := ih fun c mem => all c (by simp [mem])
    obtain ⟨index, inside⟩ := all cursor (by simp)
    refine Halts.then ?_ rest
    obtain ⟨leaf, bit⟩ := h.leaves _ inside
    obtain ⟨start, first, _⟩ := h.childStart cursor.nodeId (by omega)
    obtain ⟨fin, second, _⟩ := h.childStart (cursor.nodeId + 1) (by omega)
    rw [cons_append]
    rcases label_end within with ⟨stop, _⟩ | ⟨i, stop, above, bound, dot, _⟩
    · refine @halts_leaf _ _ _ _ leaf ?_ (by simp)
      simp only [step, index, stop, if_true, bit, map_some]
    · have searched : ss.findStep (fin - start) start = some none ∨
          ∃ e, e < fin ∧ ss.labels[e]? = some domainStep ∧ ss.findStep (fin - start) start = some (some e) := by
        by_cases empty : fin - start = 0
        · rw [empty]
          exact .inl rfl
        · rcases @DomainSet.findStep_inside ss (fin - start) start (by omega) with none | ⟨e, less, label, found⟩
          · exact .inl none
          · exact .inr ⟨e, by omega, label, found⟩
      rcases searched with none | ⟨e, less, label, found⟩
      · refine .inr (.step ?_ (by simp))
        simp only [step, index, stop]
        rw [if_neg (by omega), first, second]
        simp only [none, map_some]
      · have walks : Reaches ss key (.backtrack (cursor :: (cursors ++ stack))) (.walk cursor.nodeId e i (cursors ++ stack)) := by
          refine .step ?_ (by simp)
          simp only [step, index, stop]
          rw [if_neg (by omega), first, second]
          simp only [found, map_some]
        -- the walk goes on over the `.` that it was sent to
        obtain ⟨start', next, _⟩ := h.childStart (e + 1) (by have := h.labels; omega)
        have many : fin - e = fin - e - 1 + 1 := by omega
        have scanned : ss.scan domainStep i (fin - e) e (cursors ++ stack) = some (.found e (cursors ++ stack)) := by
          rw [many]
          simp only [scan, label]
          rfl
        have onward : Reaches ss key (.walk cursor.nodeId e i (cursors ++ stack)) (.walk (e + 1) start' (i + 1) (cursors ++ stack)) := by
          refine .step ?_ (by simp)
          simp only [step, dot, second, scanned, next, map_some]
        exact (later (by have := h.labels; omega) (by omega) (by omega) _).after (walks.trans onward)

theorem halts_walk {key : List UInt8} (n : Nat) {nodeId e idx : Nat} (inside : nodeId < nodes) (within : idx ≤ key.length)
    (left : key.length - idx ≤ n) (stack : List WildcardCursor) : Halts ss key (.walk nodeId e idx stack) stack := by
  induction n generalizing nodeId e idx stack with
  | zero =>
    obtain ⟨leaf, bit⟩ := h.leaves _ inside
    refine @halts_leaf _ _ _ _ leaf ?_ (by simp)
    simp only [step, getElem?_eq_none (show key.length ≤ idx by omega), bit, map_some]
  | succ _ ih =>
    cases char : key[idx]? with
    | none =>
      obtain ⟨leaf, bit⟩ := h.leaves _ inside
      refine @halts_leaf _ _ _ _ leaf ?_ (by simp)
      simp only [step, char, bit, map_some]
    | some c =>
      have bound : idx < key.length := (List.getElem?_eq_some_iff.mp char).1
      have later : ∀ {nodeId e idx' : Nat}, nodeId < nodes → idx < idx' → idx' ≤ key.length →
          ∀ stack, Halts ss key (.walk nodeId e idx' stack) stack :=
        fun inside above within stack => ih inside within (by omega) stack
      obtain ⟨fin, edge, _⟩ := h.childStart (nodeId + 1) (by omega)
      have scanned : ss.scan c idx (fin - e) e stack = some .accept ∨
          ∃ cursors : List WildcardCursor, (∀ cursor ∈ cursors, cursor.index = idx ∧ cursor.nodeId < ss.labels.length + 1) ∧
            (ss.scan c idx (fin - e) e stack = some (.missing (cursors ++ stack)) ∨
              ∃ e', e' < ss.labels.length ∧ ss.scan c idx (fin - e) e stack = some (.found e' (cursors ++ stack))) := by
        by_cases empty : fin - e = 0
        · rw [empty]
          exact .inr ⟨[], by simp, .inl rfl⟩
        · exact scan_inside c idx (by omega) stack
      rw [← h.labels] at scanned
      rcases scanned with accept | ⟨cursors, all, missing | ⟨e', less, found⟩⟩
      · refine .inl (.step ?_ (by simp))
        simp only [step, char, edge, accept]
      · have back : Reaches ss key (.walk nodeId e idx stack) (.backtrack (cursors ++ stack)) := by
          refine .step ?_ (by simp)
          simp only [step, char, edge, missing]
        exact (h.halts_cursors within later all stack).after back
      · obtain ⟨start, next, _⟩ := h.childStart (e' + 1) (by have := h.labels; omega)
        have onward : Reaches ss key (.walk nodeId e idx stack) (.walk (e' + 1) start (idx + 1) (cursors ++ stack)) := by
          refine .step ?_ (by simp)
          simp only [step, char, edge, found, next, map_some]
        have below := later (e := start) (show e' + 1 < nodes by have := h.labels; omega) (Nat.lt_succ_self idx) bound (cursors ++ stack)
        exact (below.after onward).then (h.halts_cursors within later all stack)

theorem has_answers (u : Unicode) (domain : List UInt8) : ∃ b n, ∀ fuel, has u (n + fuel) (some ss) domain = some b := by
  obtain ⟨start, first, _⟩ := h.childStart 0 (by omega)
  obtain ⟨_, second, _⟩ := h.childStart 1 (by have := h.several; omega)
  have long := (List.getElem?_eq_some_iff.mp second).1
  have unfolded : ∀ fuel, has u fuel (some ss) domain = ss.run (revLower u domain) fuel (.walk 0 start 0 []) := by
    intro _
    simp only [has]
    rw [if_neg (by omega), first]
    rfl
  have halts := @halts_walk ss nodes h (revLower u domain) _ 0 start 0 (by have := h.several; omega) (Nat.zero_le _) le_rfl []
  have ends : ∀ b, Reaches ss (revLower u domain) (.walk 0 start 0 []) (.done b) →
      ∃ b n, ∀ fuel, has u (n + fuel) (some ss) domain = some b := by
    rintro b ⟨n, run⟩
    refine ⟨b, n + 1, fun fuel => ?_⟩
    rw [unfolded, Nat.add_assoc, run, Nat.add_comm]
    rfl
  rcases halts with hd | hb
  · exact ends true hd
  · exact ends false (hb.trans (@Reaches.step _ _ _ (.done false) rfl (by simp)))

end Indexed

theorem onesBefore_step (bm : List (BitVec 64)) (i : Nat) :
    onesBefore bm i ≤ onesBefore bm (i + 1) ∧ onesBefore bm (i + 1) ≤ onesBefore bm i + 1 := by
  rw [onesBefore, onesBefore, take_add_one]
  cases (bm.flatMap wordBits)[i]? with
  | none => simp
  | some b => cases b <;> simp

theorem onesBefore_between (bm : List (BitVec 64)) {i j : Nat} (ho : i ≤ j) :
    onesBefore bm i ≤ onesBefore bm j ∧ onesBefore bm j ≤ onesBefore bm i + (j - i) := by
  induction j, ho using Nat.le_induction with
  | base => simp
  | succ j =>
    have := onesBefore_step bm j
    omega

theorem exists_selectOne {bits : List Bool} {i : Nat} (he : i < bits.count true) :
    ∃ p, selectOne bits i = some p ∧ bits[p]? = some true ∧ (bits.take p).count true = i := by
  induction bits generalizing i with
  | nil => simp at he
  | cons b _ ih =>
    cases b with
    | false =>
      obtain ⟨p, hs, bit, hb⟩ := ih (by simpa using he)
      exact ⟨p + 1, by rw [selectOne, hs]; rfl, bit, by simpa using hb⟩
    | true =>
      cases i with
      | zero => exact ⟨0, rfl, rfl, rfl⟩
      | succ =>
        obtain ⟨p, hs, bit, hb⟩ := ih (by simpa using he)
        exact ⟨p + 1, by rw [selectOne, hs]; rfl, bit, by simpa using hb⟩

namespace ValidBinary

variable {ss : DomainSet} {nodes : Nat} (h : ValidBinary ss nodes)
include h

theorem ones_eq : (ss.labelBitmap.flatMap wordBits).count true = nodes := by
  rw [← BitWords.sum_onesCount, h.ones]

theorem before_last {i : Nat} (less : onesBefore ss.labelBitmap i < nodes) : i ≤ 2 * nodes - 2 := by
  by_contra hb
  have := (onesBefore_between ss.labelBitmap (show 2 * nodes - 1 ≤ i by omega)).1
  rw [h.balanced] at this
  omega

theorem exists_select {i : Nat} (hi : i < nodes) :
    ∃ p, selectOne (ss.labelBitmap.flatMap wordBits) i = some p ∧ p ≤ 2 * nodes - 2 ∧ onesBefore ss.labelBitmap (p + 1) = i + 1 := by
  obtain ⟨p, hs, bit, hb⟩ := exists_selectOne (show i < (ss.labelBitmap.flatMap wordBits).count true by rw [h.ones_eq]; exact hi)
  refine ⟨p, hs, h.before_last (by rw [onesBefore, hb]; exact hi), ?_⟩
  rw [onesBefore, take_add_one, bit, count_append, hb]
  rfl

variable {σ : Type} {nodeId bmIdx : Nat}

section

variable (bitmap : Bitmap) (short : ss.labelBitmap.length ≤ 2 ^ 25) (f : σ → List UInt8 → σ × Bool)

include short f

theorem traverseFrom_step (inside : nodeId < nodes)
    (later : ∀ {next bmIdx : Nat}, nodeId < next → next < nodes → onesBefore ss.labelBitmap bmIdx = next →
      ∀ (currentKey : List UInt8) (s : σ), ∃ r n, ∀ fuel, ss.traverse bitmap f (n + fuel) currentKey next bmIdx s = some r)
    (ones : onesBefore ss.labelBitmap bmIdx = nodeId) (currentKey : List UInt8)
    (rest : bmIdx + 1 ≤ 2 * nodes - 2 → onesBefore ss.labelBitmap (bmIdx + 1) = nodeId →
      ∀ s, ∃ r n, ∀ fuel, ss.traverseFrom bitmap f (n + fuel) currentKey nodeId (bmIdx + 1) s = some r) (s : σ) :
    ∃ r n, ∀ fuel, ss.traverseFrom bitmap f (n + fuel) currentKey nodeId bmIdx s = some r := by
  have words := h.bitmapWords
  have labels := h.labels
  have place := h.before_last (i := bmIdx) (by omega)
  have bit : getBit ss.labelBitmap bmIdx = some (bitAt ss.labelBitmap bmIdx) := getBit_eq (by omega)
  have counted := @onesBefore_succ ss.labelBitmap bmIdx (by omega)
  have few := onesBefore_le ss.labelBitmap bmIdx
  cases one : bitAt ss.labelBitmap bmIdx with
  | true =>
    refine ⟨(s, true), 1, fun fuel => ?_⟩
    rw [Nat.add_comm, traverseFrom, bit, one]
    rfl
  | false =>
    rw [one] at counted bit
    have next_ones : onesBefore ss.labelBitmap (bmIdx + 1) = nodeId := by simpa [ones] using counted
    have place' := h.before_last (i := bmIdx + 1) (by omega)
    have zeros : countZeros bitmap ss.labelBitmap (bmIdx + 1) = some (bmIdx - nodeId + 1) := by
      rw [countZeros, bitmap.rank _ _ short (by omega), Option.map_some, next_ones]
      congr 1
      omega
    have after : nodeId ≤ bmIdx - nodeId := by
      by_cases first : bmIdx = 0
      · omega
      · have := h.connected (bmIdx - 1) (by omega)
        rw [show bmIdx - 1 + 1 = bmIdx by omega, ones] at this
        omega
    have there : bmIdx - nodeId + 1 < nodes := by
      have := (onesBefore_between ss.labelBitmap (show bmIdx + 1 ≤ 2 * nodes - 1 by omega)).2
      rw [h.balanced, next_ones] at this
      omega
    obtain ⟨p, one', _, ones'⟩ := h.exists_select (i := bmIdx - nodeId) (by omega)
    have selected : selectIthOne bitmap ss.labelBitmap (bmIdx - nodeId) = some p := bitmap.select _ _ _ short one'
    have label : ss.labels[bmIdx - nodeId]? = some ss.labels[bmIdx - nodeId] := getElem?_eq_getElem (by omega)
    obtain ⟨⟨s', more⟩, n₁, below⟩ := later (by omega) there ones' (currentKey ++ [ss.labels[bmIdx - nodeId]]) s
    obtain ⟨r, n₂, onward⟩ := rest place' next_ones s'
    have turn : ∀ fuel, ss.traverseFrom bitmap f (n₁ + n₂ + 1 + fuel) currentKey nodeId bmIdx s =
        if more then ss.traverseFrom bitmap f (n₁ + n₂ + fuel) currentKey nodeId (bmIdx + 1) s' else some (s', false) := by
      intro fuel
      rw [show n₁ + n₂ + 1 + fuel = n₁ + n₂ + fuel + 1 by omega, traverseFrom, bit]
      simp only [bind_some, Bool.false_eq_true, if_false]
      rw [if_pos (by omega), label, zeros]
      simp only [bind_some]
      rw [Nat.add_sub_cancel, selected]
      simp only [bind_some]
      rw [Nat.add_assoc n₁, below]
      simp only [bind_some]
    cases more with
    | true =>
      refine ⟨r, n₁ + n₂ + 1, fun fuel => ?_⟩
      rw [turn, if_pos rfl, show n₁ + n₂ + fuel = n₂ + (n₁ + fuel) by omega, onward]
    | false => exact ⟨(s', false), n₁ + n₂ + 1, turn⟩

theorem traverseFrom_ends (inside : nodeId < nodes)
    (later : ∀ {next bmIdx : Nat}, nodeId < next → next < nodes → onesBefore ss.labelBitmap bmIdx = next →
      ∀ (currentKey : List UInt8) (s : σ), ∃ r n, ∀ fuel, ss.traverse bitmap f (n + fuel) currentKey next bmIdx s = some r)
    (m : Nat) (ones : onesBefore ss.labelBitmap bmIdx = nodeId) (left : 2 * nodes - 2 - bmIdx ≤ m)
    (currentKey : List UInt8) (s : σ) : ∃ r n, ∀ fuel, ss.traverseFrom bitmap f (n + fuel) currentKey nodeId bmIdx s = some r := by
  induction m generalizing bmIdx s with
  | zero => exact h.traverseFrom_step bitmap short f inside later ones currentKey (fun place => by omega) s
  | succ _ ih => exact h.traverseFrom_step bitmap short f inside later ones currentKey (fun place ones' s => ih ones' (by omega) s) s

theorem traverse_ends (m : Nat) (inside : nodeId < nodes)
    (left : nodes - nodeId ≤ m) (ones : onesBefore ss.labelBitmap bmIdx = nodeId) (currentKey : List UInt8) (s : σ) :
    ∃ r n, ∀ fuel, ss.traverse bitmap f (n + fuel) currentKey nodeId bmIdx s = some r := by
  induction m generalizing nodeId bmIdx currentKey s with
  | zero => omega
  | succ _ ih =>
    have words := h.leafWords
    have leaf : getBit ss.leaves nodeId = some (bitAt ss.leaves nodeId) := getBit_eq (by omega)
    obtain ⟨r, n, loop⟩ := h.traverseFrom_ends bitmap short f inside (fun above there ones currentKey s => ih there (by omega) ones currentKey s)
      _ ones le_rfl currentKey (if bitAt ss.leaves nodeId then f s currentKey else (s, true)).1
    have unfolded : ∀ fuel, ss.traverse bitmap f (n + 1 + fuel) currentKey nodeId bmIdx s =
        if (if bitAt ss.leaves nodeId then f s currentKey else (s, true)).2 then some r
        else some ((if bitAt ss.leaves nodeId then f s currentKey else (s, true)).1, false) := by
      intro fuel
      rw [show n + 1 + fuel = n + fuel + 1 by omega, DomainSet.traverse, leaf]
      simp only [bind_some, loop]
    by_cases more : (if bitAt ss.leaves nodeId then f s currentKey else (s, true)).2
    · exact ⟨r, n + 1, fun fuel => by rw [unfolded, if_pos more]⟩
    · exact ⟨_, n + 1, fun fuel => by rw [unfolded, if_neg more]⟩

end

end ValidBinary

theorem getElem?_childIndex_of_select {bits : List Bool} {edge i p : Nat} (selected : selectOne bits i = some p) :
    (childIndex bits edge)[i]? = some (edge + (p - i)) ∧ i ≤ p := by
  induction bits generalizing edge i p with
  | nil => cases selected
  | cons b _ ih =>
    cases b with
    | false =>
      obtain ⟨q, eq, rfl⟩ := map_eq_some_iff.mp selected
      obtain ⟨entry, _⟩ := @ih (edge + 1) i q eq
      refine ⟨?_, by omega⟩
      rw [childIndex, entry]
      congr 1
      omega
    | true =>
      cases i with
      | zero =>
        cases selected
        exact ⟨rfl, Nat.le_refl 0⟩
      | succ i =>
        obtain ⟨q, eq, rfl⟩ := map_eq_some_iff.mp selected
        obtain ⟨entry, _⟩ := @ih edge i q eq
        refine ⟨?_, by omega⟩
        rw [childIndex, getElem?_cons_succ, entry]
        congr 2
        omega

theorem ValidBinary.indexed {nodes : Nat} (h : ValidBinary ss nodes)
    (index : ss.childStart = buildChildIndex ss.labelBitmap) : Indexed ss nodes := by
  have several := h.several
  have hl := h.labels
  refine ⟨hl, several, fun i bound => ?_, fun i inside => ?_⟩
  · rw [index, buildChildIndex, h.ones, if_neg (by omega)]
    cases i with
    | zero => exact ⟨0, rfl, Nat.zero_le _⟩
    | succ i =>
      obtain ⟨p, hs, _, ho⟩ := h.exists_select (i := i) (by omega)
      obtain ⟨entry, _⟩ := @getElem?_childIndex_of_select _ 0 i p hs
      refine ⟨_, by rw [getElem?_cons_succ, entry], ?_⟩
      have hz := (onesBefore_between ss.labelBitmap (show p + 1 ≤ 2 * nodes - 1 by omega)).2
      rw [h.balanced, ho] at hz
      omega
  · have words := h.leafWords
    exact ⟨_, getBit_eq (by omega)⟩

theorem readDomainSetBin_ok {r rest : List UInt8} (read : readDomainSetBin r = .ok (ss, rest)) :
    (∃ nodes, ValidBinary ss nodes) ∧ ss.childStart = buildChildIndex ss.labelBitmap ∧ ss.labels.length ≤ 2 ^ 24 := by
  obtain ⟨_, _, read⟩ := bind_ok.mp read
  obtain ⟨_, read⟩ := failIf_bind.mp read
  obtain ⟨⟨_, _⟩, _, read⟩ := bind_ok.mp read
  obtain ⟨⟨_, _⟩, _, read⟩ := bind_ok.mp read
  obtain ⟨_, _, read⟩ := bind_ok.mp read
  obtain ⟨few, read⟩ := failIf_bind.mp read
  obtain ⟨⟨labels, _⟩, all, read⟩ := bind_ok.mp read
  obtain ⟨_, checked, read⟩ := bind_ok.mp read
  cases read
  have long := length_readFull all
  have valid := (validateBinary_ok rfl).mp checked
  exact ⟨⟨_, valid.ones, valid.several, valid.labels, valid.bitmapWords, valid.bitmapPadding, valid.leafWords, valid.leafPadding,
    valid.terminal, valid.connected, valid.balanced, valid.last⟩, rfl, by simp only [maxBinaryDomainLabels] at few long ⊢; omega⟩

/-- Whatever bytes the reader accepts, `Has` answers every key and `Foreach` ends with every callback, and
no index is out of range. -/
theorem readDomainSetBin_safe {r rest : List UInt8} {ss : DomainSet} (read : readDomainSetBin r = .ok (ss, rest)) :
    (∀ u domain, ∃ b n, ∀ fuel, has u (n + fuel) (some ss) domain = some b) ∧
      ∀ (bitmap : Bitmap) {σ : Type} (f : σ → List UInt8 → σ × Bool) (s : σ),
        ∃ s' n, ∀ fuel, ss.foreach bitmap f (n + fuel) s = some s' := by
  obtain ⟨⟨nodes, valid⟩, index, few⟩ := readDomainSetBin_ok read
  refine ⟨(valid.indexed index).has_answers, fun bitmap σ f s => ?_⟩
  have several := valid.several
  obtain ⟨r, n, run⟩ := valid.traverse_ends bitmap (valid.short few)
    (fun s key => f s (reverseRunes (trimSuffix key complexWildcard))) _
    (show 0 < nodes by omega) le_rfl (show onesBefore ss.labelBitmap 0 = 0 from rfl) [] s
  exact ⟨r.1, n, fun fuel => by rw [DomainSet.foreach, DomainSet.keys, run]; rfl⟩

def wildcardBytes : List UInt8 :=
  [1] ++ putUint64 1#64 ++ putUint64 6#64 ++ putUint64 1#64 ++ putUint64 28#64 ++ putUint64 2#64 ++ [42, 42]

theorem readDomainSetBin_safe_sample : ∃ ss, readDomainSetBin wildcardBytes = .ok (ss, []) ∧
    (∃ b n, ∀ fuel, has .asciiOnly (n + fuel) (some ss) [97, 46, 98] = some b) ∧
    ∃ calls n, ∀ fuel, ss.foreach .counting (fun l key => (l ++ [key], true)) (n + fuel) [] = some calls := by
  have ha : (readDomainSetBin wildcardBytes).toOption.map Prod.snd = some [] := by decide +kernel
  cases hr : readDomainSetBin wildcardBytes with
  | error =>
    rw [hr] at ha
    cases ha
  | ok result =>
    obtain ⟨ss, _⟩ := result
    rw [hr] at ha
    cases ha
    have safe := readDomainSetBin_safe hr
    exact ⟨ss, rfl, safe.1 .asciiOnly [97, 46, 98], safe.2 .counting _ []⟩

end AsterCore.Trie
