import AsterCore.DomainSetLayout

namespace AsterCore.Trie

open BitWords SortedWords LevelOrder List Option Prod DomainSet

def residual (c : UInt8) (L : List UInt8 → Prop) : List UInt8 → Prop := fun w => L (c :: w)

def Begins (L : List UInt8 → Prop) (c : UInt8) : Prop := ∃ w, L (c :: w)

/-- The scan stops at a byte before `*`, so the wildcards of the node are not seen. -/
def Hides (L : List UInt8 → Prop) (c : UInt8) : Prop := c < 42 ∧ Begins L c

inductive Accepts : (List UInt8 → Prop) → List UInt8 → Prop
  | leaf {L : List UInt8 → Prop} (here : L []) : Accepts L []
  | suffix {L : List UInt8 → Prop} {c : UInt8} (q : List UInt8) (plus : Begins L 43) (seen : ¬ Hides L c) : Accepts L (c :: q)
  | letter {L : List UInt8 → Prop} {c : UInt8} {q : List UInt8} (noStar : c ≠ 42) (noPlus : c ≠ 43)
    (rest : Accepts (residual c L) q) : Accepts L (c :: q)
  | starEnd {L : List UInt8 → Prop} {c : UInt8} {q : List UInt8} (seen : ¬ Hides L c)
    (last : (c :: q).dropWhile (· ≠ domainStep) = []) (here : L [42]) : Accepts L (c :: q)
  | starStep {L : List UInt8 → Prop} {c : UInt8} {q r : List UInt8} (seen : ¬ Hides L c)
    (more : (c :: q).dropWhile (· ≠ domainStep) = domainStep :: r)
    (rest : Accepts (residual domainStep (residual 42 L)) r) : Accepts L (c :: q)

theorem Accepts.nonempty {L : List UInt8 → Prop} {q : List UInt8} (ha : Accepts L q) : ∃ w, L w := by
  induction ha with
  | leaf hh => exact ⟨_, hh⟩
  | suffix _ hp => exact ⟨_, hp.choose_spec⟩
  | letter _ _ _ ih => exact ⟨_, ih.choose_spec⟩
  | starEnd _ _ hh => exact ⟨_, hh⟩
  | starStep _ _ _ ih => exact ⟨_, ih.choose_spec⟩

def language (words : List (List UInt8)) : List UInt8 → Prop := fun w => w ∈ words

theorem begins_language (words : List (List UInt8)) (c : UInt8) :
    Begins (language words) c ↔ c ∈ (groups words).map fst := (mem_firsts words c).symm

inductive Pushed (ls : List UInt8) (e idx : Nat) (stack : List WildcardCursor) : List WildcardCursor → Prop
  | none (absent : 42 ∉ ls) : Pushed ls e idx stack stack
  | one (j : Nat) (there : ls[j]? = some 42) : Pushed ls e idx stack (⟨e + j + 1, idx⟩ :: stack)

inductive Scanned (c : UInt8) (ls : List UInt8) (e idx : Nat) (stack : List WildcardCursor) : Scan → Prop
  | accept (plus : 43 ∈ ls) (seen : ¬ (c < 42 ∧ c ∈ ls)) : Scanned c ls e idx stack .accept
  | hidden (k : Nat) (there : ls[k]? = some c) (small : c < 42) : Scanned c ls e idx stack (.found (e + k) stack)
  | found (k : Nat) (there : ls[k]? = some c) (large : 43 < c) (noPlus : 43 ∉ ls) {stack' : List WildcardCursor}
    (pushed : Pushed ls e idx stack stack') : Scanned c ls e idx stack (.found (e + k) stack')
  | missing (absent : c = 42 ∨ c ∉ ls) (noPlus : 43 ∉ ls) {stack' : List WildcardCursor}
    (pushed : Pushed ls e idx stack stack') : Scanned c ls e idx stack (.missing stack')

variable {stack stack' : List WildcardCursor}

variable {e idx : Nat} {ls : List UInt8}

theorem Pushed.shift {b : UInt8} (ho : b ≠ 42)
    (hp : Pushed ls (e + 1) idx stack stack') : Pushed (b :: ls) e idx stack stack' := by
  cases hp with
  | none ha => exact .none (by simp [ha, ho.symm])
  | one j ht =>
    have := @Pushed.one (b :: ls) e idx stack (j + 1) ht
    rwa [show e + (j + 1) + 1 = e + 1 + j + 1 by omega] at this

theorem Pushed.star (ha : 42 ∉ ls)
    (hp : Pushed ls (e + 1) idx (⟨e + 1, idx⟩ :: stack) stack') : Pushed (42 :: ls) e idx stack stack' := by
  cases hp with
  | none => exact .one 0 rfl
  | one _ ht => exact absurd (mem_of_getElem? ht) ha

variable {ss : DomainSet}

theorem DomainSet.scan_scanned {c : UInt8} {idx : Nat} {ls : List UInt8} (increasing : ls.Pairwise (· < ·))
    {e : Nat} (labels : ∀ k, k < ls.length → ss.labels[e + k]? = ls[k]?) (stack : List WildcardCursor) :
    ∃ result, ss.scan c idx ls.length e stack = some result ∧ Scanned c ls e idx stack result := by
  induction ls generalizing e stack with
  | nil => exact ⟨_, rfl, .missing (.inr (by simp)) (by simp) (.none (by simp))⟩
  | cons b ls ih =>
    have here : ss.labels[e]? = some b := labels 0 (by simp)
    have later := (pairwise_cons.mp increasing).1
    have rest := fun stack => ih (pairwise_cons.mp increasing).2 (e := e + 1)
      (fun k bound => by
        have := labels (k + 1) (by simp; omega)
        rwa [show e + (k + 1) = e + 1 + k by omega] at this) stack
    have above : ∀ {d : UInt8}, d ∈ b :: ls → b ≤ d := by
      intro d mem
      rcases mem_cons.mp mem with rfl | ht
      · exact UInt8.le_refl d
      · exact UInt8.le_of_lt (later d ht)
    simp only [scan, length_cons, here]
    split
    next plus =>
      subst plus
      refine ⟨_, rfl, .accept (by simp) ?_⟩
      rintro ⟨_, _⟩
      grind
    next noPlus =>
      split
      next star =>
        subst star
        have once : 42 ∉ ls := fun mem => UInt8.lt_irrefl 42 (later 42 mem)
        obtain ⟨result, eq, scanned⟩ := rest (⟨e + 1, idx⟩ :: stack)
        refine ⟨result, eq, ?_⟩
        cases scanned with
        | accept plus =>
          refine .accept (by simp [plus]) ?_
          rintro ⟨_, _⟩
          grind
        | hidden _ ht small =>
          have := above (mem_cons_of_mem _ (mem_of_getElem? ht))
          exact absurd small (by grind)
        | found k ht large plus hp =>
          rw [show e + 1 + k = e + (k + 1) by omega]
          exact .found (k + 1) ht large (by simp [plus]) (hp.star once)
        | missing ha plus hp =>
          refine .missing ?_ (by simp [plus]) (hp.star once)
          rcases ha with same | ha
          · exact .inl same
          · by_cases same : c = 42
            · exact .inl same
            · exact .inr (by simp [same, ha])
      next noStar =>
        split
        next same =>
          subst same
          by_cases small : b < 42
          · exact ⟨_, rfl, .hidden 0 rfl small⟩
          · refine ⟨_, rfl, .found 0 rfl (by grind) ?_ (.none ?_)⟩
            · intro _
              grind
            · intro _
              grind
        next other =>
          obtain ⟨result, eq, scanned⟩ := rest stack
          refine ⟨result, eq, ?_⟩
          cases scanned with
          | accept plus seen =>
            refine .accept (by simp [plus]) ?_
            rintro ⟨small, mem⟩
            exact seen ⟨small, (mem_cons.mp mem).resolve_left fun eq => other eq.symm⟩
          | hidden k ht small =>
            rw [show e + 1 + k = e + (k + 1) by omega]
            exact .hidden (k + 1) ht small
          | found k ht large plus hp =>
            rw [show e + 1 + k = e + (k + 1) by omega]
            exact .found (k + 1) ht large (by simp [plus, Ne.symm noPlus]) (hp.shift noStar)
          | missing ha plus hp =>
            refine .missing ?_ (by simp [plus, Ne.symm noPlus]) (hp.shift noStar)
            rcases ha with same | ha
            · exact .inl same
            · exact .inr (by simp [Ne.symm other, ha])

theorem DomainSet.findStep_eq (hl : ∀ k, k < ls.length → ss.labels[e + k]? = ls[k]?) :
    (∃ k, ls[k]? = some domainStep ∧ ss.findStep ls.length e = some (some (e + k))) ∨
      (domainStep ∉ ls ∧ ss.findStep ls.length e = some none) := by
  induction ls generalizing e with
  | nil => exact .inr ⟨by simp, rfl⟩
  | cons b _ ih =>
    have hh : ss.labels[e]? = some b := hl 0 (by simp)
    simp only [findStep, length_cons, hh]
    by_cases hs : b = domainStep
    · exact .inl ⟨0, by simp [hs], by simp [hs]⟩
    · rw [if_neg hs]
      rcases ih (e := e + 1) (fun k bound => by
        have := hl (k + 1) (by simp; omega)
        rwa [show e + (k + 1) = e + 1 + k by omega] at this) with ⟨k, ht, eq⟩ | ⟨ha, eq⟩
      · exact .inl ⟨k + 1, ht, by rw [eq, show e + 1 + k = e + (k + 1) by omega]⟩
      · exact .inr ⟨by simp [ha, Ne.symm hs], eq⟩

def Reaches (ss : DomainSet) (key : List UInt8) (s s' : HasState) : Prop :=
  ∃ n, ∀ fuel, ss.run key (n + fuel) s = ss.run key fuel s'

theorem Reaches.refl (ss : DomainSet) (key : List UInt8) (s : HasState) : Reaches ss key s s :=
  ⟨0, fun fuel => by rw [Nat.zero_add]⟩

variable {key : List UInt8}

theorem Reaches.trans {s₁ s₂ s₃ : HasState} (hf : Reaches ss key s₁ s₂) (hs : Reaches ss key s₂ s₃) : Reaches ss key s₁ s₃ := by
  obtain ⟨n, one⟩ := hf
  obtain ⟨m, two⟩ := hs
  exact ⟨n + m, fun fuel => by rw [Nat.add_assoc, one, two]⟩

variable {s : HasState}

theorem Reaches.step {s' : HasState} (hn : ss.step key s = some s') (running : ∀ b, s ≠ .done b) : Reaches ss key s s' := by
  refine ⟨1, fun fuel => ?_⟩
  rw [Nat.add_comm]
  cases s with
  | done b => exact absurd rfl (running b)
  | walk nodeId e i stack =>
    show (ss.step key (.walk nodeId e i stack)).bind (ss.run key fuel) = _
    rw [hn]
    rfl
  | backtrack stack =>
    show (ss.step key (.backtrack stack)).bind (ss.run key fuel) = _
    rw [hn]
    rfl

def Settles (ss : DomainSet) (key : List UInt8) (s : HasState) (stack : List WildcardCursor) (p : Prop) : Prop :=
  (p ∧ Reaches ss key s (.done true)) ∨ (¬ p ∧ Reaches ss key s (.backtrack stack))

theorem Settles.of_iff {p p' : Prop} (h : Settles ss key s stack p) (iff : p ↔ p') : Settles ss key s stack p' := by
  rw [← iff]
  exact h

theorem Settles.after {s' : HasState} {p : Prop}
    (hr : Reaches ss key s s') (h : Settles ss key s' stack p) : Settles ss key s stack p :=
  h.imp (fun ⟨yes, hd⟩ => ⟨yes, hr.trans hd⟩) fun ⟨no, hb⟩ => ⟨no, hr.trans hb⟩

theorem Settles.or {p p' : Prop} (hf : Settles ss key s stack' p) (hs : Settles ss key (.backtrack stack') stack p') :
    Settles ss key s stack (p ∨ p') := by
  rcases hf with ⟨yes, hd⟩ | ⟨no, hb⟩
  · exact .inl ⟨.inl yes, hd⟩
  · rcases hs with ⟨yes', hd⟩ | ⟨no', hb'⟩
    · exact .inl ⟨.inr yes', hb.trans hd⟩
    · exact .inr ⟨not_or.mpr ⟨no, no'⟩, hb.trans hb'⟩

theorem Settles.of_leaf {leaf : Bool}
    (hn : ss.step key s = some (if leaf then .done true else .backtrack stack)) (running : ∀ b, s ≠ .done b) :
    Settles ss key s stack (leaf = true) := by
  cases leaf with
  | true => exact .inl ⟨rfl, .step hn running⟩
  | false => exact .inr ⟨by simp, .step hn running⟩

def StarAccepts (L : List UInt8 → Prop) (q : List UInt8) : Prop :=
  (q.dropWhile (· ≠ domainStep) = [] ∧ L [42]) ∨
    ∃ r, q.dropWhile (· ≠ domainStep) = domainStep :: r ∧ Accepts (residual domainStep (residual 42 L)) r

theorem accepts_cons_iff (L : List UInt8 → Prop) (c : UInt8) (q : List UInt8) :
    Accepts L (c :: q) ↔ (Begins L 43 ∧ ¬ Hides L c) ∨ (c ≠ 42 ∧ c ≠ 43 ∧ Accepts (residual c L) q) ∨
      (¬ Hides L c ∧ StarAccepts L (c :: q)) := by
  constructor
  · intro ha
    cases ha with
    | suffix _ hp hs => exact .inl ⟨hp, hs⟩
    | letter hns hnp hr => exact .inr (.inl ⟨hns, hnp, hr⟩)
    | starEnd hs hl hh => exact .inr (.inr ⟨hs, .inl ⟨hl, hh⟩⟩)
    | starStep hs hm hr => exact .inr (.inr ⟨hs, .inr ⟨_, hm, hr⟩⟩)
  · rintro (⟨hp, hs⟩ | ⟨hns, hnp, hr⟩ | ⟨hs, ⟨hl, hh⟩ | ⟨r, hm, hr⟩⟩)
    · exact .suffix q hp hs
    · exact .letter hns hnp hr
    · exact .starEnd hs hl hh
    · exact .starStep hs hm hr

theorem StarAccepts.begins {L : List UInt8 → Prop} {q : List UInt8} (hs : StarAccepts L q) : Begins L 42 := by
  rcases hs with ⟨_, hh⟩ | ⟨r, _, hr⟩
  · exact ⟨[], hh⟩
  · obtain ⟨w, hw⟩ := hr.nonempty
    exact ⟨domainStep :: w, hw⟩

theorem label_end (hi : idx ≤ key.length) :
    (idx + ((key.drop idx).takeWhile (· ≠ domainStep)).length = key.length ∧ (key.drop idx).dropWhile (· ≠ domainStep) = []) ∨
      ∃ i, idx + ((key.drop idx).takeWhile (· ≠ domainStep)).length = i ∧ idx ≤ i ∧ i < key.length ∧ key[i]? = some domainStep ∧
        (key.drop idx).dropWhile (· ≠ domainStep) = domainStep :: key.drop (i + 1) := by
  have hp : (key.drop idx).takeWhile (· ≠ domainStep) ++ (key.drop idx).dropWhile (· ≠ domainStep) = key.drop idx :=
    takeWhile_append_dropWhile
  have hl := congrArg length hp
  rw [length_append, length_drop] at hl
  have rest : key.drop (idx + ((key.drop idx).takeWhile (· ≠ domainStep)).length) =
      (key.drop idx).dropWhile (· ≠ domainStep) := by
    rw [← drop_drop]
    calc (key.drop idx).drop ((key.drop idx).takeWhile (· ≠ domainStep)).length
        = ((key.drop idx).takeWhile (· ≠ domainStep) ++ (key.drop idx).dropWhile (· ≠ domainStep)).drop
            ((key.drop idx).takeWhile (· ≠ domainStep)).length := by rw [hp]
      _ = (key.drop idx).dropWhile (· ≠ domainStep) := drop_left
  generalize stop : idx + ((key.drop idx).takeWhile (· ≠ domainStep)).length = i at rest
  cases hr : (key.drop idx).dropWhile (· ≠ domainStep) with
  | nil =>
    rw [hr, length_nil] at hl
    exact .inl ⟨by omega, rfl⟩
  | cons b r =>
    rw [hr, length_cons] at hl
    have hd : b = domainStep := by
      have := head?_dropWhile_not (· ≠ domainStep) (key.drop idx)
      rw [hr] at this
      simpa using this
    subst hd
    rw [hr] at rest
    have dot : key[i]? = some domainStep := by
      rw [← head?_drop, rest]
      rfl
    have afterDot : key.drop (i + 1) = r := by rw [← drop_drop, rest, drop_one, tail_cons]
    exact .inr ⟨i, rfl, by omega, by omega, dot, by rw [afterDot]⟩

namespace Encodes

variable {ss : DomainSet} {keys : List (List UInt8)} {nodes : List (List (List UInt8))} (h : Encodes ss keys nodes)
include h

variable {i : Nat} {words : List (List UInt8)}

section

variable (here : nodes[i]? = some words)

include here

theorem getElem?_labels (k : Nat) (hb : k < ((groups words).map fst).length) :
    ss.labels[offset groups nodes i + k]? = ((groups words).map fst)[k]? := by
  rw [length_map] at hb
  rw [h.labels, getElem?_map, getElem?_map, getElem?_edges here hb]

theorem child {k : Nat} {c : UInt8} (hl : ((groups words).map fst)[k]? = some c) :
    ∃ words', nodes[offset groups nodes i + k + 1]? = some words' ∧ language words' = residual c (language words) := by
  rw [getElem?_map] at hl
  obtain ⟨⟨d, words'⟩, group, rfl⟩ := map_eq_some_iff.mp hl
  refine ⟨words', h.laid.child here group, funext fun w => propext ?_⟩
  exact mem_group (h.sorted words (mem_of_getElem? here)) (mem_of_getElem? group) w

theorem leaf_iff : isLeaf words = true ↔ language words [] := by
  rw [isLeaf, decide_eq_true_eq]
  exact (nil_mem_iff (h.sorted words (mem_of_getElem? here))).symm

theorem fin_eq : ss.childStart[i + 1]? = some (offset groups nodes i + ((groups words).map fst).length) := by
  have bound := (List.getElem?_eq_some_iff.mp here).1
  rw [h.getElem?_childStart (by omega), offset_succ groups here, length_map]

theorem start_eq : ss.childStart[i]? = some (offset groups nodes i) := by
  have bound := (List.getElem?_eq_some_iff.mp here).1
  exact h.getElem?_childStart (by omega)

end

variable {key : List UInt8}

variable {idx : Nat}

theorem settles_end (hh : nodes[i]? = some words) (hl : key.drop idx = []) (stack : List WildcardCursor) :
    Settles ss key (.walk i (offset groups nodes i) idx stack) stack (Accepts (language words) (key.drop idx)) := by
  have hp := getElem?_eq_none (drop_eq_nil_iff.mp hl)
  have hn : ss.step key (.walk i (offset groups nodes i) idx stack) =
      some (if isLeaf words then .done true else .backtrack stack) := by
    simp only [step, hp, h.getBit_leaves hh, map_some]
  refine (Settles.of_leaf hn (by simp)).of_iff ?_
  rw [h.leaf_iff hh, hl]
  constructor
  · exact Accepts.leaf
  · intro ha
    cases ha with
    | leaf hh => exact hh

theorem reaches_step {j k : Nat} {below : List (List UInt8)} (ht : nodes[j]? = some below)
    (hl : ((groups below).map fst)[k]? = some domainStep) (dot : key[idx]? = some domainStep) (stack : List WildcardCursor) :
    ∃ after, nodes[offset groups nodes j + k + 1]? = some after ∧
      language after = residual domainStep (language below) ∧
      Reaches ss key (.walk j (offset groups nodes j + k) idx stack)
        (.walk (offset groups nodes j + k + 1) (offset groups nodes (offset groups nodes j + k + 1)) (idx + 1) stack) := by
  obtain ⟨after, hn, hl_eq⟩ := h.child ht hl
  refine ⟨after, hn, hl_eq, .step ?_ (by simp)⟩
  have hb := (List.getElem?_eq_some_iff.mp hl).1
  have hh := h.getElem?_labels ht k hb
  rw [hl] at hh
  have hm : offset groups nodes j + ((groups below).map fst).length - (offset groups nodes j + k) =
      ((groups below).map fst).length - k - 1 + 1 := by omega
  have hs : ss.scan domainStep idx (((groups below).map fst).length - k - 1 + 1) (offset groups nodes j + k) stack =
      some (.found (offset groups nodes j + k) stack) := by
    simp only [scan, hh]
    rfl
  simp only [step, dot, h.fin_eq ht, hm, hs, h.start_eq hn, map_some]

theorem settles_cursor {below : List (List UInt8)} {j : Nat} (ht : nodes[j]? = some below)
    (hl_eq : language below = residual 42 (language words)) (hi : idx ≤ key.length)
    (ih : ∀ {i idx' : Nat} {words : List (List UInt8)}, nodes[i]? = some words → idx < idx' → idx' ≤ key.length →
      ∀ stack, Settles ss key (.walk i (offset groups nodes i) idx' stack) stack (Accepts (language words) (key.drop idx')))
    (stack : List WildcardCursor) :
    Settles ss key (.backtrack (⟨j, idx⟩ :: stack)) stack (StarAccepts (language words) (key.drop idx)) := by
  rcases label_end hi with ⟨stop, hr⟩ | ⟨idx', stop, above, bound, dot, hr⟩
  · have hn : ss.step key (.backtrack (⟨j, idx⟩ :: stack)) = some (if isLeaf below then .done true else .backtrack stack) := by
      simp only [step, stop, if_true, h.getBit_leaves ht, map_some]
    refine (Settles.of_leaf hn (by simp)).of_iff ?_
    rw [h.leaf_iff ht, hl_eq]
    constructor
    · exact fun hh => .inl ⟨hr, hh⟩
    · rintro (⟨_, hh⟩ | ⟨r, hm, _⟩)
      · exact hh
      · rw [hr] at hm
        cases hm
  · generalize afterDot : key.drop (idx' + 1) = r at hr
    have he : ((groups below).map fst).length =
        offset groups nodes j + ((groups below).map fst).length - offset groups nodes j := by omega
    have star : StarAccepts (language words) (key.drop idx) ↔ Accepts (residual domainStep (language below)) r := by
      rw [hl_eq]
      constructor
      · rintro (⟨last, _⟩ | ⟨_, hm, ha⟩)
        · rw [hr] at last
          cases last
        · rw [hr] at hm
          cases hm
          exact ha
      · exact fun ha => .inr ⟨r, hr, ha⟩
    rcases findStep_eq (h.getElem?_labels ht) with ⟨k, hl, hf⟩ | ⟨hab, hf⟩
    · obtain ⟨_, node, hl_after, hre⟩ := h.reaches_step ht hl dot stack
      have hn : ss.step key (.backtrack (⟨j, idx⟩ :: stack)) = some (.walk j (offset groups nodes j + k) idx' stack) := by
        simp only [step, stop]
        rw [if_neg (by omega), h.start_eq ht, h.fin_eq ht]
        simp only [← he, hf, map_some]
      have hs := @ih _ (idx' + 1) _ node (by omega) (by omega) stack
      rw [hl_after, afterDot] at hs
      exact ((hs.after hre).after (.step hn (by simp))).of_iff star.symm
    · have hn : ss.step key (.backtrack (⟨j, idx⟩ :: stack)) = some (.backtrack stack) := by
        simp only [step]
        rw [if_neg (by omega), h.start_eq ht, h.fin_eq ht]
        simp only [← he, hf, map_some]
      refine .inr ⟨?_, .step hn (by simp)⟩
      rw [star]
      intro ha
      obtain ⟨w, hw⟩ := ha.nonempty
      exact hab ((begins_language below domainStep).mp ⟨w, hw⟩)

theorem settles_walk (n : Nat) {i idx : Nat} {words : List (List UInt8)} (here : nodes[i]? = some words)
    (inside : idx ≤ key.length) (left : key.length - idx ≤ n) (stack : List WildcardCursor) :
    Settles ss key (.walk i (offset groups nodes i) idx stack) stack (Accepts (language words) (key.drop idx)) := by
  induction n generalizing i idx words stack with
  | zero => exact h.settles_end here (drop_eq_nil_iff.mpr (by omega)) stack
  | succ _ ih =>
    have shorter : ∀ {i idx' : Nat} {words : List (List UInt8)}, nodes[i]? = some words → idx < idx' → idx' ≤ key.length →
        ∀ stack, Settles ss key (.walk i (offset groups nodes i) idx' stack) stack (Accepts (language words) (key.drop idx')) :=
      fun there less bound stack => ih there bound (by omega) stack
    cases rest : key.drop idx with
    | nil =>
      have := h.settles_end here rest stack
      rwa [rest] at this
    | cons c q =>
      have char : key[idx]? = some c := by
        rw [← head?_drop, rest]
        rfl
      have tail : key.drop (idx + 1) = q := by rw [← drop_drop, rest, drop_one, tail_cons]
      have bound : idx < key.length := (List.getElem?_eq_some_iff.mp char).1
      have sorted := h.sorted words (mem_of_getElem? here)
      have enough : offset groups nodes i + ((groups words).map fst).length - offset groups nodes i =
          ((groups words).map fst).length := by omega
      obtain ⟨result, scan, scanned⟩ := @DomainSet.scan_scanned ss c idx _ (firsts_increasing sorted) _
        (h.getElem?_labels here) stack
      have begins := begins_language words
      have hides : Hides (language words) c ↔ c < 42 ∧ c ∈ (groups words).map fst := and_congr_right fun _ => begins c
      -- the walk goes on behind the label of the byte
      have onward : ∀ {k : Nat} {stack' : List WildcardCursor}, ((groups words).map fst)[k]? = some c →
          result = .found (offset groups nodes i + k) stack' →
          Settles ss key (.walk i (offset groups nodes i) idx stack) stack' (Accepts (residual c (language words)) q) := by
        intro k stack' label found
        obtain ⟨_, node, language_after⟩ := h.child here label
        have settled := shorter node (Nat.lt_succ_self idx) bound stack'
        rw [language_after, tail] at settled
        refine settled.after (.step ?_ (by simp))
        simp only [step, char, h.fin_eq here, enough, scan, found, h.start_eq node, map_some]
      -- the cursor of the `*`
      have cursor : ∀ {j : Nat}, ((groups words).map fst)[j]? = some 42 →
          Settles ss key (.backtrack (⟨offset groups nodes i + j + 1, idx⟩ :: stack)) stack (StarAccepts (language words) (c :: q)) := by
        intro j label
        obtain ⟨_, node, language_below⟩ := h.child here label
        have settled := h.settles_cursor node language_below inside shorter stack
        rwa [rest] at settled
      cases scanned with
      | accept plus seen =>
        refine .inl ⟨.suffix q ((begins 43).mpr plus) (fun hidden => seen (hides.mp hidden)), .step ?_ (by simp)⟩
        simp only [step, char, h.fin_eq here, enough, scan]
      | hidden _ label small =>
        have hidden := hides.mpr ⟨small, mem_of_getElem? label⟩
        have noStar : c ≠ 42 := by grind
        have noPlus : c ≠ 43 := by grind
        refine (onward label rfl).of_iff ?_
        rw [accepts_cons_iff]
        tauto
      | found _ label large plus pushed =>
        have seen : ¬ Hides (language words) c := fun hidden => by have := hidden.1; grind
        have noStar : c ≠ 42 := by grind
        have noPlus : c ≠ 43 := by grind
        have noSuffix := mt (begins 43).mp plus
        cases pushed with
        | none absent =>
          have noBranch : ¬ StarAccepts (language words) (c :: q) := fun star => absent ((begins 42).mp star.begins)
          refine (onward label rfl).of_iff ?_
          rw [accepts_cons_iff]
          tauto
        | one _ star =>
          refine ((onward label rfl).or (cursor star)).of_iff ?_
          rw [accepts_cons_iff]
          tauto
      | @missing absent plus stack' pushed =>
        have seen : ¬ Hides (language words) c := by
          intro hidden
          obtain ⟨small, mem⟩ := hides.mp hidden
          rcases absent with rfl | absent
          · exact UInt8.lt_irrefl 42 small
          · exact absent mem
        have noSuffix := mt (begins 43).mp plus
        have noLetter : ¬ (c ≠ 42 ∧ c ≠ 43 ∧ Accepts (residual c (language words)) q) := fun ⟨noStar, _, accepts⟩ =>
          absent.resolve_left noStar ((begins c).mp accepts.nonempty)
        have back : Reaches ss key (.walk i (offset groups nodes i) idx stack) (.backtrack stack') := by
          refine .step ?_ (by simp)
          simp only [step, char, h.fin_eq here, enough, scan]
        cases pushed with
        | none noStar =>
          have noBranch : ¬ StarAccepts (language words) (c :: q) := fun star => noStar ((begins 42).mp star.begins)
          refine .inr ⟨?_, back⟩
          rw [accepts_cons_iff]
          tauto
        | one _ star =>
          refine ((cursor star).after back).of_iff ?_
          simp only [accepts_cons_iff, noSuffix, noLetter, seen, false_and, not_false_eq_true, true_and, false_or]

theorem has_iff (u : Unicode) (domain : List UInt8) :
    ∃ b, (∃ n, ∀ fuel, has u (n + fuel) (some ss) domain = some b) ∧
    (b = true ↔ Accepts (language keys) (revLower u domain)) := by
  have hs := @settles_walk ss keys nodes h (revLower u domain) _ _ _ _ h.laid.root_eq (Nat.zero_le _) le_rfl []
  have long := h.length_childStart
  have hst := h.start_eq h.laid.root_eq
  rw [offset_zero, drop_zero] at hs
  have hu : ∀ fuel, has u fuel (some ss) domain = ss.run (revLower u domain) fuel (.walk 0 0 0 []) := by
    intro _
    simp only [has]
    rw [if_neg (by omega), hst]
    rfl
  rcases hs with ⟨yes, n, run⟩ | ⟨no, hr⟩
  · refine ⟨true, ⟨n + 1, fun fuel => ?_⟩, by simp [yes]⟩
    rw [hu, Nat.add_assoc, run, Nat.add_comm]
    rfl
  · obtain ⟨n, run⟩ := hr.trans (@Reaches.step _ _ _ (.done false) rfl (by simp))
    refine ⟨false, ⟨n + 1, fun fuel => ?_⟩, by simp [no]⟩
    rw [hu, Nat.add_assoc, run, Nat.add_comm]
    rfl

end Encodes

end AsterCore.Trie
