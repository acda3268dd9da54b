import AsterCore.DomainTrie

namespace AsterCore.Trie

open List Option DomainTrie

variable {T : Type}

def candidates : List Label → List (List Label)
  | [] => [[]]
  | x :: xs =>
    (if x = wildcard then [] else (candidates xs).map (x :: ·)) ++ (candidates xs).map (wildcard :: ·) ++ [[dotWildcard]]

theorem data_unlessEmpty (found next : Option (Node T)) :
    (unlessEmpty found next).bind Node.data = (found.bind Node.data).or (next.bind Node.data) := by
  cases found with
  | none => rfl
  | some n =>
    cases hd : n.data with
    | none | some v => simp [unlessEmpty, Option.filter, Node.inited, hd]

theorem Node.search_below (n : Node T) (s : Label) {xs : List Label}
    (ih : ∀ n : Node T, (n.search xs).bind Node.data = (candidates xs).findSome? n.at) :
    ((n.getChild s).bind fun c => c.search xs).bind Node.data = ((candidates xs).map (s :: ·)).findSome? n.at := by
  have hs : ∀ path, n.at (s :: path) = (n.getChild s).bind fun c => c.at path := fun _ => rfl
  rw [findSome?_map]
  cases hc : n.getChild s with
  | none =>
    refine (findSome?_eq_none_iff.mpr fun path _ => ?_).symm
    show n.at (s :: path) = none
    rw [hs, hc]
    rfl
  | some c =>
    show (c.search xs).bind Node.data = _
    rw [ih c]
    refine congrArg (findSome? · (candidates xs)) (funext fun path => ?_)
    show c.at path = n.at (s :: path)
    rw [hs, hc]
    rfl

theorem Node.search_data (n : Node T) (xs : List Label) : (n.search xs).bind Node.data = (candidates xs).findSome? n.at := by
  induction xs generalizing n with
  | nil => cases data : n.data <;> simp [Node.search, candidates]
  | cons _ xs ih =>
    have hd : (n.getChild dotWildcard).bind Node.data = findSome? n.at [[dotWildcard]] := by
      show n.at [dotWildcard] = _
      cases hv : n.at [dotWildcard] <;> simp [hv]
    simp only [Node.search, candidates, findSome?_append, data_unlessEmpty, n.search_below _ ih, hd]
    split
    next hs =>
      subst hs
      cases ((candidates xs).map (wildcard :: ·)).findSome? n.at <;> rfl
    · exact or_assoc.symm

variable {u : Unicode} {domain : List UInt8} {parts ls : List Label}

theorem DomainTrie.search_data (t : DomainTrie T) (hv : validAndSplitDomain u domain = some parts)
    (hn : parts.head? ≠ some []) : (t.search u domain).bind Node.data = (candidates parts.reverse).findSome? t.root.at := by
  simp only [search, hv, if_neg hn]
  rw [← Node.search_data]
  cases t.root.search parts.reverse with
  | none => rfl
  | some n => cases hd : n.data <;> simp [Option.filter, Node.inited, hd]

theorem DomainTrie.search_eq_none (t : DomainTrie T) (domain : List UInt8) :
    t.search u domain = none ↔ (t.search u domain).bind Node.data = none := by
  unfold search
  split
  · simp
  next parts _ =>
    split
    · simp
    · cases t.root.search parts.reverse with
      | none => simp
      | some n => cases hd : n.data <;> simp [Node.inited, hd]

inductive Kind
  | literal
  | star
  | dots
  deriving DecidableEq

def Kind.rank : Kind → Nat
  | .literal => 0
  | .star => 1
  | .dots => 2

def precedes : List Kind → List Kind → Bool
  | k :: ks, l :: ls => k.rank < l.rank || (k.rank == l.rank && precedes ks ls)
  | _, _ => false

/-- How a pattern covers a domain, both as labels from the right: equal label by label, with `*` for one
label, an empty last label for one or more labels and `+` for zero or more. -/
def covers : List Label → List Label → Option (List Kind)
  | [], [] => some []
  | [], _ :: _ => none
  | l :: ls, ds =>
    if l = dotWildcard then (if ds = [] then none else some [.dots])
    else if l = complexWildcard then (if ds = [] then some [] else some [.dots])
    else
      match ds with
      | [] => none
      | d :: ds =>
        if l = wildcard then (covers ls ds).map (Kind.star :: ·)
        else if l = d then (covers ls ds).map (Kind.literal :: ·)
        else none

def kind (l : Label) : Kind := if l = dotWildcard then .dots else if l = wildcard then .star else .literal

def paths : List Label → List (List Label)
  | [] => [[]]
  | l :: ls => if l = complexWildcard then [[], [dotWildcard]] else (paths ls).map (l :: ·)

def Ended : List Label → Prop
  | [] => True
  | l :: ls => (ls = [] ∨ (l ≠ dotWildcard ∧ l ≠ complexWildcard)) ∧ Ended ls

theorem mem_candidates_cons (d : Label) (ds path : List Label) :
    path ∈ candidates (d :: ds) ↔ (∃ rest ∈ candidates ds, path = d :: rest ∨ path = wildcard :: rest) ∨ path =
    [dotWildcard] := by
  simp only [candidates]
  split
  next star =>
    subst star
    simp [eq_comm]
  · simp only [mem_append, List.mem_map, mem_singleton]
    constructor
    · rintro ((⟨rest, mem, rfl⟩ | ⟨rest, mem, rfl⟩) | last)
      · exact .inl ⟨rest, mem, .inl rfl⟩
      · exact .inl ⟨rest, mem, .inr rfl⟩
      · exact .inr last
    · rintro (⟨rest, mem, rfl | rfl⟩ | last)
      · exact .inl (.inl ⟨rest, mem, rfl⟩)
      · exact .inl (.inr ⟨rest, mem, rfl⟩)
      · exact .inr last

theorem nil_mem_candidates (ds : List Label) : [] ∈ candidates ds ↔ ds = [] := by
  cases ds with
  | nil => simp [candidates]
  | cons => simp [mem_candidates_cons]

theorem dots_mem_candidates (ds : List Label) : [dotWildcard] ∈ candidates ds ↔ ds ≠ [] := by
  cases ds with
  | nil => simp [candidates]
  | cons => simp [mem_candidates_cons]

theorem cons_mem_candidates {l : Label} (wide : l ≠ dotWildcard) (path : List Label) (ds : List Label) :
    l :: path ∈ candidates ds ↔ ∃ d rest, ds = d :: rest ∧ (l = wildcard ∨ l = d) ∧ path ∈ candidates rest := by
  cases ds with
  | nil => simp [candidates]
  | cons d ds =>
    rw [mem_candidates_cons]
    constructor
    · rintro (⟨_, mem, same | same⟩ | same)
      · cases same
        exact ⟨l, ds, rfl, .inr rfl, mem⟩
      · cases same
        exact ⟨d, ds, rfl, .inl rfl, mem⟩
      · cases same
        exact absurd rfl wide
    · rintro ⟨_, _, ⟨rfl, rfl⟩, rfl | rfl, mem⟩
      · exact .inl ⟨path, mem, .inr rfl⟩
      · exact .inl ⟨path, mem, .inl rfl⟩

theorem covers_iff (ended : Ended ls) (ds : List Label) (ks : List Kind) :
    covers ls ds = some ks ↔ ∃ path ∈ paths ls, path ∈ candidates ds ∧ path.map kind = ks := by
  induction ls generalizing ds ks with
  | nil =>
    cases ds with
    | nil => simp [covers, paths, candidates]
    | cons => simp [covers, paths, nil_mem_candidates]
  | cons l ls ih =>
    by_cases dot : l = dotWildcard
    · have alone : ls = [] := by
        rcases ended.1 with none | ⟨other, _⟩
        · exact none
        · exact absurd dot other
      subst dot alone
      have sole : paths [dotWildcard] = [[dotWildcard]] := rfl
      simp only [covers, sole, mem_singleton, exists_eq_left, dots_mem_candidates, ↓reduceIte]
      by_cases empty : ds = []
      · simp [empty]
      · simp [empty, kind, eq_comm]
    by_cases plus : l = complexWildcard
    · have alone : ls = [] := by
        rcases ended.1 with none | ⟨_, other⟩
        · exact none
        · exact absurd plus other
      subst plus alone
      have both : paths [complexWildcard] = [[], [dotWildcard]] := rfl
      rw [both]
      simp only [covers, if_neg dot, ↓reduceIte, mem_cons, not_mem_nil, or_false, exists_eq_or_imp, exists_eq_left,
        nil_mem_candidates, dots_mem_candidates]
      by_cases empty : ds = []
      · simp [empty, eq_comm]
      · simp [empty, kind, eq_comm]
    have split : paths (l :: ls) = (paths ls).map (l :: ·) := by rw [paths, if_neg plus]
    have step : (∃ path ∈ paths (l :: ls), path ∈ candidates ds ∧ path.map kind = ks) ↔
        ∃ d rest, ds = d :: rest ∧ (l = wildcard ∨ l = d) ∧
          ∃ ks', ks = kind l :: ks' ∧ ∃ path ∈ paths ls, path ∈ candidates rest ∧ path.map kind = ks' := by
      rw [split]
      simp only [List.mem_map, exists_exists_and_eq_and, cons_mem_candidates dot, map_cons]
      constructor
      · rintro ⟨path, mem, ⟨d, rest, rfl, same, cand⟩, rfl⟩
        exact ⟨d, rest, rfl, same, _, rfl, path, mem, cand, rfl⟩
      · rintro ⟨d, rest, rfl, same, _, rfl, path, mem, cand, rfl⟩
        exact ⟨path, mem, ⟨d, rest, rfl, same, cand⟩, rfl⟩
    rw [step]
    cases ds with
    | nil => simp [covers, dot, plus]
    | cons d ds =>
      have tail := ih ended.2 ds
      simp only [covers, if_neg dot, if_neg plus]
      split
      next star =>
        simp only [map_eq_some_iff, tail, cons.injEq, star, true_or, true_and]
        constructor
        · rintro ⟨ks', found, rfl⟩
          exact ⟨d, ds, ⟨rfl, rfl⟩, ks', rfl, found⟩
        · rintro ⟨_, _, ⟨rfl, rfl⟩, ks', rfl, found⟩
          exact ⟨ks', found, rfl⟩
      next plain =>
        have : kind l = .literal := by simp [kind, dot, plain]
        split
        next same =>
          simp only [map_eq_some_iff, tail, cons.injEq, this, plain, false_or]
          constructor
          · rintro ⟨ks', found, rfl⟩
            exact ⟨d, ds, ⟨rfl, rfl⟩, same, ks', rfl, found⟩
          · rintro ⟨_, _, ⟨rfl, rfl⟩, _, ks', rfl, found⟩
            exact ⟨ks', found, rfl⟩
        next other =>
          constructor
          · intro no
            cases no
          · rintro ⟨_, _, eq, same, _⟩
            cases eq
            exact absurd same (by simp [plain, other])

theorem precedes_cons (k : Kind) (ks ls : List Kind) : precedes (k :: ks) (k :: ls) = precedes ks ls := by
  simp [precedes]

theorem precedes_asymm {ks ls : List Kind} (before : precedes ks ls = true) : precedes ls ks = false := by
  induction ks generalizing ls with
  | nil => cases before
  | cons _ _ ih =>
    cases ls with
    | nil => rfl
    | cons =>
      simp only [precedes, Bool.or_eq_true, decide_eq_true_eq, Bool.and_eq_true, beq_iff_eq] at before
      simp only [precedes, Bool.or_eq_false_iff, decide_eq_false_iff_not, Bool.and_eq_false_iff, beq_eq_false_iff_ne]
      rcases before with less | ⟨same, rest⟩
      · exact ⟨by omega, .inl (by omega)⟩
      · exact ⟨by omega, .inr (ih rest)⟩

theorem candidates_ordered {ds : List Label} (named : ∀ d ∈ ds, d ≠ []) :
    (candidates ds).Pairwise fun a b => precedes (a.map kind) (b.map kind) = true := by
  induction ds with
  | nil => simp [candidates]
  | cons d ds ih =>
    have hs := ih fun d mem => named d (by simp [mem])
    have hbe : ∀ s, ((candidates ds).map (s :: ·)).Pairwise fun a b => precedes (a.map kind) (b.map kind) = true := by
      intro s
      refine pairwise_map.mpr (hs.imp fun {a b} hb => ?_)
      rw [map_cons, map_cons, precedes_cons]
      exact hb
    have star : kind wildcard = .star := rfl
    have dots : kind dotWildcard = .dots := rfl
    refine pairwise_append.mpr ⟨pairwise_append.mpr ⟨?_, hbe wildcard, ?_⟩, by simp, ?_⟩
    · split
      · exact List.Pairwise.nil
      · exact hbe d
    · intro a hl b hr
      split at hl
      · cases hl
      next hp =>
        obtain ⟨_, _, rfl⟩ := mem_map.mp hl
        obtain ⟨_, _, rfl⟩ := mem_map.mp hr
        have literal : kind d = .literal := by simp [kind, hp, dotWildcard, named d (by simp)]
        simp [star, literal, precedes, Kind.rank]
    · intro a hl b hr
      cases mem_singleton.mp hr
      have hh : ∃ s a', a = s :: a' ∧ kind s ≠ .dots := by
        rcases mem_append.mp hl with mem | mem
        · split at mem
          · cases mem
          next hp =>
            obtain ⟨a', _, rfl⟩ := mem_map.mp mem
            exact ⟨d, a', rfl, by simp [kind, hp, dotWildcard, named d (by simp)]⟩
        · obtain ⟨a', _, rfl⟩ := mem_map.mp mem
          exact ⟨wildcard, a', rfl, by simp [star]⟩
      obtain ⟨s, _, rfl, ho⟩ := hh
      cases k : kind s with
      | literal | star => simp [dots, k, precedes, Kind.rank]
      | dots => exact absurd k ho

theorem precedes_self (ks : List Kind) : precedes ks ks = false := by
  cases before : precedes ks ks with
  | false => rfl
  | true => exact (precedes_asymm before).symm.trans before |>.symm

theorem candidates_total {ds a b : List Label} (named : ∀ d ∈ ds, d ≠ []) (hl : a ∈ candidates ds)
    (right : b ∈ candidates ds) (before : precedes (a.map kind) (b.map kind) = false)
    (after : precedes (b.map kind) (a.map kind) = false) : a = b := by
  obtain ⟨_, _, split⟩ := append_of_mem hl
  have ordered := candidates_ordered named
  rw [split] at right ordered
  obtain ⟨_, rest, cross⟩ := pairwise_append.mp ordered
  rcases mem_append.mp right with mem | mem
  · rw [cross b mem a (by simp)] at after
    cases after
  · rcases mem_cons.mp mem with hs | mem
    · exact hs.symm
    · rw [(pairwise_cons.mp rest).1 b mem] at before
      cases before

structure WellFormed (parts : List Label) : Prop where
  nonempty : parts ≠ []
  tail : ∀ l ∈ parts.tail, l ≠ [] ∧ 43 ∉ l
  head : ∀ l, parts.head? = some l → 43 ∈ l → l = complexWildcard
  alone : ∀ l, parts = [l] → l ≠ [] ∧ 43 ∉ l
  stars : ∀ l ∈ parts, 42 ∈ l → l = wildcard

theorem validParts_wellFormed (hn : parts ≠ []) (valid : validParts parts = true) : WellFormed parts := by
  obtain ⟨hf, he⟩ := Bool.and_eq_true_iff.mp valid
  have hc : ∀ i l, parts[i]? = some l → validPart parts.length i l = true := by
    intro i l ht
    obtain ⟨hb, _⟩ := List.getElem?_eq_some_iff.mp ht
    have := all_eq_true.mp he i (mem_range.mpr hb)
    rwa [ht] at this
  have hp : ∀ i l, parts[i]? = some l → 43 ∈ l → l = complexWildcard ∧ i = 0 ∧ parts.length ≠ 1 := by
    intro i l ht mem
    have := hc i l ht
    simp [validPart, mem] at this
    exact ⟨this.1.1.1, this.1.1.2, this.1.2⟩
  have hs : ∀ (i : Nat) l, parts[i]? = some l → 42 ∈ l → l = wildcard := by
    intro i l ht mem
    have := hc i l ht
    simp [validPart, mem] at this
    exact this.2
  have hl : ∀ l ∈ parts.tail, 43 ∉ l := by
    intro l mem hi
    obtain ⟨i, ht⟩ := mem_iff_getElem?.mp mem
    rw [getElem?_tail] at ht
    have := (hp (i + 1) l ht hi).2.1
    omega
  refine ⟨hn, ?_, ?_, ?_, ?_⟩
  · intro l mem
    refine ⟨?_, hl l mem⟩
    split at hf
    next one =>
      obtain ⟨x, rfl⟩ := length_eq_one_iff.mp one
      cases mem
    · simpa using all_eq_true.mp hf l mem
  · intro l hfi hi
    rw [head?_eq_getElem?] at hfi
    exact (hp 0 l hfi hi).1
  · rintro l rfl
    refine ⟨by simpa using hf, fun hi => ?_⟩
    exact (hp 0 l rfl hi).2.2 rfl
  · intro l mem hi
    obtain ⟨i, ht⟩ := mem_iff_getElem?.mp mem
    exact hs i l ht hi

theorem validAndSplitDomain_eq (hv : validAndSplitDomain u domain = some parts) :
    parts = (u.lower domain).splitOn domainStep ∧ validParts parts = true := by
  unfold validAndSplitDomain at hv
  split at hv
  · cases hv
  split at hv
  · cases hv
  split at hv
  · cases hv
  split at hv <;> cases hv
  next hc => exact ⟨rfl, hc⟩

theorem validAndSplitDomain_wellFormed (valid : validAndSplitDomain u domain = some parts) : WellFormed parts := by
  obtain ⟨rfl, hc⟩ := validAndSplitDomain_eq valid
  exact validParts_wellFormed (splitOn_ne_nil _ _) hc

theorem WellFormed.ended (h : WellFormed parts) : Ended parts.reverse := by
  obtain ⟨first, rest, rfl⟩ := exists_cons_of_ne_nil h.nonempty
  have tail : ∀ ls : List Label, (∀ l ∈ ls, l ≠ [] ∧ 43 ∉ l) → Ended (ls ++ [first]) := by
    intro ls plain
    induction ls with
    | nil => exact ⟨.inl rfl, trivial⟩
    | cons l _ ih =>
      refine ⟨.inr ⟨(plain l (by simp)).1, ?_⟩, ih fun x mem => plain x (by simp [mem])⟩
      rintro rfl
      exact (plain complexWildcard (by simp)).2 (by simp [complexWildcard])
  rw [reverse_cons]
  exact tail rest.reverse fun l mem => h.tail l (mem_reverse.mp mem)

theorem paths_of_no_plus (none : ∀ l ∈ ls, l ≠ complexWildcard) : paths ls = [ls] := by
  induction ls with
  | nil => rfl
  | cons l _ ih =>
    rw [paths, if_neg (none l (by simp)), ih fun x mem => none x (by simp [mem])]
    rfl

theorem paths_of_last_plus (none : ∀ l ∈ ls, l ≠ complexWildcard) :
    paths (ls ++ [complexWildcard]) = [ls, ls ++ [dotWildcard]] := by
  induction ls with
  | nil => rfl
  | cons l _ ih =>
    rw [cons_append, paths, if_neg (none l (by simp)), ih fun x mem => none x (by simp [mem])]
    rfl

def sets (u : Unicode) (domain : List UInt8) : List (List Label) :=
  match validAndSplitDomain u domain with
  | some parts => paths parts.reverse
  | none => []

theorem ne_plus_of_not_mem {l : Label} (none : 43 ∉ l) : l ≠ complexWildcard := by
  rintro rfl
  exact none (by simp [complexWildcard])

theorem DomainTrie.at_insert {t t' : DomainTrie T} {v : T} (hi : t.insert u domain v = some t') (path : List Label) :
    t'.root.at path = if path ∈ sets u domain then some v else t.root.at path := by
  unfold insert at hi
  split at hi
  · cases hi
  next hv =>
    have hf := validAndSplitDomain_wellFormed hv
    obtain ⟨first, rest, rfl⟩ := exists_cons_of_ne_nil hf.nonempty
    have hp : ∀ l ∈ rest.reverse, l ≠ complexWildcard :=
      fun l mem => ne_plus_of_not_mem (hf.tail l (mem_reverse.mp mem)).2
    split at hi <;> cases hi
    next plus =>
      have hs := some.inj plus
      have two : sets u domain = [rest.reverse, rest.reverse ++ [dotWildcard]] := by
        rw [sets, hv, hs]
        show paths (complexWildcard :: rest).reverse = _
        rw [reverse_cons, paths_of_last_plus hp]
      simp only [insertParts, Node.at_insert, two, mem_cons,
        not_mem_nil]
      by_cases exact : path = rest.reverse
      · simp [exact]
      · simp [exact]
    next ho =>
      have hn : ∀ l ∈ (first :: rest).reverse, l ≠ complexWildcard := by
        intro l mem
        rw [reverse_cons] at mem
        rcases mem_append.mp mem with hl | hh
        · exact hp l hl
        · rintro rfl
          exact ho (congrArg some (mem_singleton.mp hh)).symm
      have one : sets u domain = [(first :: rest).reverse] := by
        rw [sets, hv]
        exact paths_of_no_plus hn
      simp only [insertParts, Node.at_insert, one, mem_singleton]

inductive Op (T : Type)
  | insert (domain : List UInt8) (data : T)
  | optimize

def run (u : Unicode) : DomainTrie T → List (Op T) → Option (DomainTrie T)
  | t, [] => some t
  | t, .insert domain data :: ops => (t.insert u domain data).bind fun t' => run u t' ops
  | t, .optimize :: ops => run u t.optimize ops

def inserts : List (Op T) → List (List UInt8 × T)
  | [] => []
  | .insert domain data :: ops => (domain, data) :: inserts ops
  | .optimize :: ops => inserts ops

def latest (u : Unicode) (path : List Label) : List (List UInt8 × T) → Option T
  | [] => none
  | (domain, data) :: rest => (latest u path rest).or (if path ∈ sets u domain then some data else none)

theorem run_at {t t' : DomainTrie T} {ops : List (Op T)} (ran : run u t ops = some t') (path : List Label) :
    t'.root.at path = (latest u path (inserts ops)).or (t.root.at path) := by
  induction ops generalizing t with
  | nil =>
    cases ran
    rfl
  | cons op ops ih =>
    cases op with
    | insert =>
      obtain ⟨_, hi, hr⟩ := bind_eq_some_iff.mp ran
      rw [ih hr, at_insert hi]
      show _ = ((latest u path (inserts ops)).or _).or _
      rw [Option.or_assoc]
      split <;> rfl
    | optimize =>
      rw [ih ran]
      exact congrArg _ (t.root.at_optimize path)

theorem latest_eq_none {path : List Label} {entries : List (List UInt8 × T)} :
    latest u path entries = none ↔ ∀ e ∈ entries, path ∉ sets u e.1 := by
  induction entries with
  | nil => simp [latest]
  | cons _ _ ih => simp [latest, ih, and_comm]

theorem latest_eq_some {path : List Label} {entries : List (List UInt8 × T)} {v : T} :
    latest u path entries = some v ↔ ∃ (i : Nat) (domain : List UInt8), entries[i]? = some (domain, v) ∧
      path ∈ sets u domain ∧ ∀ (j : Nat) e, entries[j]? = some e → path ∈ sets u e.1 → j ≤ i := by
  induction entries generalizing v with
  | nil => simp [latest]
  | cons e entries ih =>
    cases hl : latest u path entries with
    | some w =>
      have hf : latest u path (e :: entries) = some w := by simp [latest, hl]
      rw [hf, ← hl, ih]
      constructor
      · rintro ⟨i, domain, hh, set, last⟩
        refine ⟨i + 1, domain, hh, set, fun j e' ht set' => ?_⟩
        cases j with
        | zero => omega
        | succ j => exact Nat.succ_le_succ (last j e' ht set')
      · rintro ⟨i, domain, hh, set, last⟩
        cases i with
        | zero =>
          obtain ⟨k, _, ht, set', _⟩ := ih.mp hl
          have := last (k + 1) _ ht set'
          omega
        | succ i => exact ⟨i, domain, hh, set, fun j e' ht set' => Nat.le_of_succ_le_succ (last (j + 1) e' ht set')⟩
    | none =>
      have ha := latest_eq_none.mp hl
      obtain ⟨domain', w⟩ := e
      have hf : latest u path ((domain', w) :: entries) = if path ∈ sets u domain' then some w else none := by
        simp [latest, hl]
      rw [hf]
      constructor
      · intro hv
        split at hv <;> cases hv
        next set =>
          refine ⟨0, domain', rfl, set, fun j e' ht set' => ?_⟩
          cases j with
          | zero => omega
          | succ => exact absurd set' (ha e' (mem_of_getElem? ht))
      · rintro ⟨i, domain, hh, set, _⟩
        cases i with
        | zero =>
          cases hh
          rw [if_pos set]
        | succ => exact absurd set (ha (domain, v) (mem_of_getElem? hh))

def coverage (u : Unicode) (parts : List Label) (entry : List UInt8 × T) : Option (List Kind) :=
  (validAndSplitDomain u entry.1).bind fun pattern => covers pattern.reverse parts.reverse

/-- The insertion is the last one of the pattern that is first in priority among those that match. -/
def Answers (u : Unicode) (entries : List (List UInt8 × T)) (parts : List Label) (i : Nat) (v : T) : Prop :=
  ∃ domain ks, entries[i]? = some (domain, v) ∧ coverage u parts (domain, v) = some ks ∧
    ∀ (j : Nat) e ks', entries[j]? = some e → coverage u parts e = some ks' →
      precedes ks' ks = false ∧ (ks' = ks → j ≤ i)

theorem coverage_iff (u : Unicode) (parts : List Label) (entry : List UInt8 × T) (ks : List Kind) :
    coverage u parts entry = some ks ↔
      ∃ path ∈ sets u entry.1, path ∈ candidates parts.reverse ∧ path.map kind = ks := by
  unfold coverage sets
  cases hv : validAndSplitDomain u entry.1 with
  | none => simp
  | some => exact covers_iff (validAndSplitDomain_wellFormed hv).ended parts.reverse ks

theorem named_of_wellFormed (formed : WellFormed parts) (named : parts.head? ≠ some []) : ∀ d ∈ parts.reverse, d ≠ [] := by
  obtain ⟨_, _, rfl⟩ := exists_cons_of_ne_nil formed.nonempty
  intro d mem
  rcases mem_cons.mp (mem_reverse.mp mem) with rfl | later
  · exact fun empty => named (by simp [empty])
  · exact (formed.tail d later).1

/-- `Search` gives the value of the last insertion of the pattern that is first in priority among the
inserted ones that match, and nothing exactly when none matches. -/
theorem search_priority {u : Unicode} {ops : List (Op T)} {t : DomainTrie T} (ran : run u {} ops = some t)
    {domain : List UInt8} {parts : List Label} (valid : validAndSplitDomain u domain = some parts)
    (named : parts.head? ≠ some []) :
    (∀ v, (t.search u domain).bind Node.data = some v ↔ ∃ i, Answers u (inserts ops) parts i v) ∧
      (t.search u domain = none ↔ ∀ e ∈ inserts ops, coverage u parts e = none) := by
  have labels := named_of_wellFormed (validAndSplitDomain_wellFormed valid) named
  have recorded : t.root.at = fun path => latest u path (inserts ops) := by
    funext path
    have start : (({} : DomainTrie T).root.at path) = none := by cases path <;> rfl
    rw [run_at ran, start, or_none]
  have result : (t.search u domain).bind Node.data =
      (candidates parts.reverse).findSome? fun path => latest u path (inserts ops) := by
    rw [t.search_data valid named, recorded]
  have answer : ∀ {v}, (t.search u domain).bind Node.data = some v → ∃ i, Answers u (inserts ops) parts i v := by
    intro v found
    rw [result] at found
    obtain ⟨before, path, _, split, value, empty⟩ := findSome?_eq_some_iff.mp found
    obtain ⟨i, d, here, set, last⟩ := latest_eq_some.mp value
    have cand : path ∈ candidates parts.reverse := by simp [split]
    refine ⟨i, d, path.map kind, here, (coverage_iff u parts _ _).mpr ⟨path, set, cand, rfl⟩, ?_⟩
    intro j e ks there covered
    obtain ⟨other, set', cand', rfl⟩ := (coverage_iff u parts e ks).mp covered
    have later : other ∉ before := by
      intro mem
      exact latest_eq_none.mp (empty other mem) e (mem_of_getElem? there) set'
    refine ⟨?_, fun hs => ?_⟩
    · have ordered := candidates_ordered labels
      rw [split] at cand' ordered
      rcases mem_append.mp cand' with mem | mem
      · exact absurd mem later
      · rcases mem_cons.mp mem with rfl | mem
        · exact precedes_self _
        · exact precedes_asymm ((pairwise_cons.mp (pairwise_append.mp ordered).2.1).1 other mem)
    · have he : other = path :=
        candidates_total labels cand' cand (by rw [hs, precedes_self]) (by rw [hs, precedes_self])
      exact last j e there (he ▸ set')
  have none : t.search u domain = none ↔ ∀ e ∈ inserts ops, coverage u parts e = none := by
    rw [t.search_eq_none, result, findSome?_eq_none_iff]
    constructor
    · intro empty e mem
      refine eq_none_iff_forall_ne_some.mpr fun ks covered => ?_
      obtain ⟨path, set, cand, _⟩ := (coverage_iff u parts e ks).mp covered
      exact latest_eq_none.mp (empty path cand) e mem set
    · intro hu path cand
      refine latest_eq_none.mpr fun e mem set => ?_
      have covered := (coverage_iff u parts e (path.map kind)).mpr ⟨path, set, cand, rfl⟩
      rw [hu e mem] at covered
      cases covered
  refine ⟨fun v => ⟨answer, ?_⟩, none⟩
  rintro ⟨i, d, ks, here, covered, first⟩
  cases found : (t.search u domain).bind Node.data with
  | none =>
    rw [none.mp ((t.search_eq_none domain).mpr found) _ (mem_of_getElem? here)] at covered
    cases covered
  | some =>
    obtain ⟨i', _, ks', hh', covered', hf'⟩ := answer found
    obtain ⟨path, _, cand, rfl⟩ := (coverage_iff u parts _ ks).mp covered
    obtain ⟨path', _, cand', rfl⟩ := (coverage_iff u parts _ ks').mp covered'
    have one := first i' _ _ hh' covered'
    have two := hf' i _ _ here covered
    have he : path = path' := candidates_total labels cand cand' two.1 one.1
    subst he
    have hs : i = i' := Nat.le_antisymm (two.2 rfl) (one.2 rfl)
    rw [hs, hh'] at here
    cases here
    rfl

def sampleOps : List (Op Nat) :=
  [.insert (encode ['*', '.', 'a', '.', 'c']) 1, .insert (encode ['+', '.', 'a', '.', 'c']) 2, .optimize]

/-- Both patterns match, and `*` is before the dot wildcard. -/
theorem search_priority_sample : ∃ t, run .asciiOnly {} sampleOps = some t ∧
    (t.search .asciiOnly (encode ['B', '.', 'a', '.', 'c'])).bind Node.data = some 1 := by
  have total : (run .asciiOnly {} sampleOps).isSome = true := by decide +kernel
  obtain ⟨t, ran⟩ := isSome_iff_exists.mp total
  refine ⟨t, ran, ?_⟩
  have valid : validAndSplitDomain .asciiOnly (encode ['B', '.', 'a', '.', 'c']) = some [[98], [97], [99]] := by decide +kernel
  refine ((search_priority ran valid (by decide)).1 1).mpr ⟨0, _, [.literal, .literal, .star], rfl, by decide +kernel, ?_⟩
  intro j e _ there covered
  match j, there with
  | 0, there =>
    cases there
    rw [show coverage .asciiOnly _ _ = some [.literal, .literal, .star] by decide +kernel] at covered
    cases covered
    exact ⟨rfl, fun _ => Nat.le_refl 0⟩
  | 1, there =>
    cases there
    rw [show coverage .asciiOnly _ _ = some [.literal, .literal, .dots] by decide +kernel] at covered
    cases covered
    exact ⟨rfl, fun same => by cases same⟩
  | n + 2, there => cases there

end AsterCore.Trie
