import AsterCore.GoStrings

namespace AsterCore.Utils

open List

/-- A fixed-width integer type, by its extreme values. -/
structure IntType where
  min : Int
  max : Int
  lt : min < max

abbrev IntType.Value (t : IntType) := { x : Int // t.min ≤ x ∧ x ≤ t.max }

def IntType.wrap (t : IntType) (x : Int) : t.Value :=
  ⟨t.min + (x - t.min) % (t.max - t.min + 1), by
    have := t.lt
    have := Int.emod_nonneg (x - t.min) (show t.max - t.min + 1 ≠ 0 by omega)
    have := Int.emod_lt_of_pos (x - t.min) (show 0 < t.max - t.min + 1 by omega)
    omega⟩

theorem IntType.wrap_of_mem (t : IntType) {x : Int} (h : t.min ≤ x) (h' : x ≤ t.max) : (t.wrap x).1 = x := by
  have := Int.emod_eq_of_lt (show 0 ≤ x - t.min by omega) (show x - t.min < t.max - t.min + 1 by omega)
  simp only [wrap]
  omega

def IntType.succ {t : IntType} (i : t.Value) : t.Value := t.wrap (i.1 + 1)

theorem IntType.succ_cases {t : IntType} (i : t.Value) : i.1 < t.max ∧ (succ i).1 = i.1 + 1 ∨ i.1 = t.max ∧ (succ i).1 = t.min := by
  by_cases h : i.1 < t.max
  · exact .inl ⟨h, t.wrap_of_mem (by have := i.2; omega) (by omega)⟩
  · have eq : i.1 = t.max := by have := i.2; omega
    refine .inr ⟨eq, ?_⟩
    simp only [succ, wrap, eq]
    rw [show t.max + 1 - t.min = t.max - t.min + 1 by omega, Int.emod_self]
    omega

structure Range (t : IntType) where
  start : t.Value
  stop : t.Value
  ordered : start.1 ≤ stop.1

variable {t : IntType}

def newRange (start stop : t.Value) : Range t :=
  if h : start.1 > stop.1 then ⟨stop, start, by omega⟩ else ⟨start, stop, by omega⟩

def Range.contains (r : Range t) (x : t.Value) : Bool := x.1 ≥ r.start.1 && x.1 ≤ r.stop.1

/-- The loop of `IntRanges.Range` over one range, from `i` on. A callback that returns false ends it with an error. -/
def Range.each {σ : Type} (r : Range t) (f : σ → t.Value → Except σ σ) (i : t.Value) (s : σ) : Except σ σ :=
  if i.1 ≤ r.stop.1 ∧ i.1 ≥ r.start.1 then do
    let s ← f s i
    if (IntType.succ i).1 < i.1 then return s else r.each f (IntType.succ i) s
  else return s
termination_by (t.max - i.1).toNat
decreasing_by
  have := i.2
  have := t.lt
  rcases IntType.succ_cases i with ⟨_, eq⟩ | ⟨_, eq⟩ <;> omega

def rangeEach {σ : Type} (ranges : List (Range t)) (f : σ → t.Value → Except σ σ) (s : σ) : Except σ σ :=
  ranges.foldlM (fun s r => r.each f r.start s) s

/-- `sort.Slice` by the starts; the order of equal ones is open. -/
structure SortSlice (t : IntType) where
  sort : List (Range t) → List (Range t)
  perm (ranges : List (Range t)) : (sort ranges).Perm ranges
  sorted (ranges : List (Range t)) : (sort ranges).Pairwise fun a b => a.start.1 ≤ b.start.1

/-- One round of `Merge` on the array that `ranges` and `mergedRanges` share, of which the latter ends at the index. Nothing
stands for an index out of range. -/
def mergeRound (s : List (Range t) × Nat) (i : Nat) : Option (List (Range t) × Nat) :=
  match s.1[i]?, s.1[s.2]? with
  | some r, some last =>
    if (IntType.succ last.stop).1 > last.stop.1 ∧ r.start.1 > (IntType.succ last.stop).1 then some (s.1.set (s.2 + 1) r, s.2 + 1)
    else if h : r.stop.1 > last.stop.1 then
      some (s.1.set s.2 { last with stop := r.stop, ordered := by have := last.ordered; omega }, s.2)
    else some s
  | _, _ => none

def merge (sort : SortSlice t) (ranges : List (Range t)) : Option (List (Range t)) :=
  if ranges = [] then some []
  else ((range' 1 (ranges.length - 1)).foldlM mergeRound (sort.sort ranges, 0)).map fun s => s.1.take (s.2 + 1)

def Mem (x : t.Value) (ranges : List (Range t)) : Prop := ∃ r ∈ ranges, r.start.1 ≤ x.1 ∧ x.1 ≤ r.stop.1

def Separated (ranges : List (Range t)) : Prop := ranges.Pairwise fun a b => a.stop.1 + 1 < b.start.1

section

variable {rest front junk : List (Range t)} {last r : Range t}

theorem getElem?_current : (front ++ last :: (junk ++ r :: rest))[front.length + 1 + junk.length]? = some r := by
  rw [getElem?_append_right (by omega), show front.length + 1 + junk.length - front.length = junk.length + 1 by omega,
    getElem?_cons_succ, getElem?_append_right le_rfl, Nat.sub_self]
  rfl

theorem set_next : (front ++ last :: (junk ++ r :: rest)).set (front.length + 1) r =
    front ++ [last] ++ r :: ((junk ++ [r]).tail ++ rest) := by
  cases junk with
  | nil => simp
  | cons => simp

theorem mem_append_iff {x : t.Value} {front : List (Range t)} : Mem x (front ++ rest) ↔ Mem x front ∨ Mem x rest := by
  simp [Mem, or_and_right, exists_or]

theorem mem_cons_iff {x : t.Value} : Mem x (r :: rest) ↔ (r.start.1 ≤ x.1 ∧ x.1 ≤ r.stop.1) ∨ Mem x rest := by
  simp [Mem]

theorem mergeRounds (hs : Separated (front ++ [last])) (hl : (last :: rest).Pairwise fun a b => a.start.1 ≤ b.start.1) :
    ∃ array k, (range' (front.length + 1 + junk.length) rest.length).foldlM mergeRound
        (front ++ last :: (junk ++ rest), front.length) = some (array, k) ∧
      Separated (array.take (k + 1)) ∧ ∀ x, Mem x (array.take (k + 1)) ↔ Mem x (front ++ last :: rest) := by
  induction rest generalizing front last junk with
  | nil =>
    refine ⟨_, _, rfl, ?_⟩
    simp only [append_nil, take_append, take_of_length_le (Nat.le_succ front.length), Nat.add_sub_cancel_left, take_one, head?_cons]
    exact ⟨hs, fun _ => Iff.rfl⟩
  | cons r rest ih =>
    have hr := pairwise_cons.mp hl
    have order := hr.1 r mem_cons_self
    have := r.ordered
    have current : (front ++ last :: (junk ++ r :: rest))[front.length]? = some last := by simp
    have skip : ∀ {last' : Range t}, front ++ last' :: (junk ++ r :: rest) = front ++ last' :: (junk ++ [r] ++ rest) := by simp
    have next : front.length + 1 + junk.length + 1 = front.length + 1 + (junk ++ [r]).length := by simp; omega
    have cover : ∀ {last' : Range t} {x : t.Value}, (last'.start.1 ≤ x.1 ∧ x.1 ≤ last'.stop.1 ↔
        (last.start.1 ≤ x.1 ∧ x.1 ≤ last.stop.1) ∨ r.start.1 ≤ x.1 ∧ x.1 ≤ r.stop.1) →
        (Mem x (front ++ last' :: rest) ↔ Mem x (front ++ last :: r :: rest)) := by
      intro last' x iff
      rw [mem_append_iff, mem_append_iff, mem_cons_iff, mem_cons_iff, mem_cons_iff, iff, or_assoc]
    rw [length_cons, range'_succ, foldlM_cons, mergeRound, getElem?_current, current]
    simp only
    split
    next apart =>
      have gap : last.stop.1 + 1 < r.start.1 := by rcases IntType.succ_cases last.stop with ⟨_, eq⟩ | ⟨_, eq⟩ <;> omega
      have hs' : Separated (front ++ [last] ++ [r]) := by
        refine pairwise_append.mpr ⟨hs, pairwise_singleton .., fun a ha b hb => ?_⟩
        obtain rfl := mem_singleton.mp hb
        rcases mem_append.mp ha with ha | ha
        · have := (pairwise_append.mp hs).2.2 a ha last (mem_singleton_self last)
          omega
        · rwa [mem_singleton.mp ha]
      have len : front.length + 1 + junk.length + 1 = (front ++ [last]).length + 1 + (junk ++ [r]).tail.length := by simp; omega
      rw [set_next, len, show front.length + 1 = (front ++ [last]).length by simp]
      obtain ⟨array, k, run, sep, mem⟩ := @ih (front ++ [last]) (junk ++ [r]).tail r hs' hr.2
      exact ⟨array, k, run, sep, by simpa using mem⟩
    next near =>
      split
      next longer =>
        let last' : Range t := ⟨last.start, r.stop, by omega⟩
        have hs' : Separated (front ++ [last']) := by
          obtain ⟨hf, -, hb⟩ := pairwise_append.mp hs
          exact pairwise_append.mpr ⟨hf, pairwise_singleton .., by simpa using hb⟩
        rw [set_append_right _ _ le_rfl, Nat.sub_self, set_cons_zero, skip, next]
        obtain ⟨array, k, run, sep, mem⟩ := @ih front (junk ++ [r]) last' hs'
          (pairwise_cons.mpr ⟨fun b hb => hr.1 b (mem_cons_of_mem r hb), (pairwise_cons.mp hr.2).2⟩)
        refine ⟨array, k, run, sep, fun x => (mem x).trans (cover ?_)⟩
        show last.start.1 ≤ x.1 ∧ x.1 ≤ r.stop.1 ↔ _
        rcases IntType.succ_cases last.stop with ⟨_, eq⟩ | ⟨_, eq⟩ <;> omega
      next shorter =>
        rw [skip, next]
        obtain ⟨array, k, run, sep, mem⟩ := @ih front (junk ++ [r]) last hs (hl.sublist (by simp))
        refine ⟨array, k, run, sep, fun x => (mem x).trans (cover ?_)⟩
        omega

end

theorem each_calls (r : Range t) (n : Nat) {i : t.Value} (hi : r.start.1 ≤ i.1) (hn : (r.stop.1 + 1 - i.1).toNat = n) :
    ∃ calls : List t.Value, (∀ {σ : Type} (f : σ → t.Value → Except σ σ) (s : σ), r.each f i s = calls.foldlM f s) ∧
      calls.Pairwise (·.1 < ·.1) ∧ ∀ x, x ∈ calls ↔ i.1 ≤ x.1 ∧ x.1 ≤ r.stop.1 := by
  induction n generalizing i with
  | zero =>
    refine ⟨[], fun f s => ?_, .nil, fun x => ?_⟩
    · rw [Range.each, if_neg (by omega)]
      rfl
    · simp only [not_mem_nil, false_iff]
      omega
  | succ n ih =>
    have := t.lt
    rcases IntType.succ_cases i with ⟨less, eq⟩ | ⟨same, eq⟩
    · obtain ⟨calls, run, order, mem⟩ := @ih (IntType.succ i) (by omega) (by omega)
      refine ⟨i :: calls, fun f s => ?_, pairwise_cons.mpr ⟨fun x hx => ?_, order⟩, fun x => ?_⟩
      · rw [Range.each, if_pos (by omega), foldlM_cons]
        simp only [if_neg (show ¬ (IntType.succ i).1 < i.1 by omega), run]
      · have := (mem x).mp hx
        omega
      · rw [mem_cons, mem x, Subtype.ext_iff]
        omega
    · refine ⟨[i], fun f s => ?_, pairwise_singleton .., fun x => ?_⟩
      · rw [Range.each, if_pos (by omega), foldlM_cons]
        simp only [if_pos (show (IntType.succ i).1 < i.1 by omega), foldlM_nil]
      · have := x.2
        rw [mem_singleton, Subtype.ext_iff]
        omega

theorem rangeEach_calls {ranges : List (Range t)} (hs : Separated ranges) :
    ∃ calls : List t.Value, (∀ {σ : Type} (f : σ → t.Value → Except σ σ) (s : σ), rangeEach ranges f s = calls.foldlM f s) ∧
      calls.Pairwise (·.1 < ·.1) ∧ ∀ x, x ∈ calls ↔ Mem x ranges := by
  induction ranges with
  | nil => exact ⟨[], fun _ _ => rfl, .nil, by simp [Mem]⟩
  | cons r ranges ih =>
    obtain ⟨first, rest⟩ := pairwise_cons.mp hs
    obtain ⟨one, run₁, order₁, mem₁⟩ := each_calls r _ le_rfl rfl
    obtain ⟨more, run, order, mem⟩ := ih rest
    refine ⟨one ++ more, fun f s => ?_, pairwise_append.mpr ⟨order₁, order, fun x hx y hy => ?_⟩, fun x => ?_⟩
    · rw [rangeEach, foldlM_cons, run₁, foldlM_append]
      exact congrArg _ (funext (run f))
    · obtain ⟨r', hr', hy⟩ := (mem y).mp hy
      have := first r' hr'
      have := (mem₁ x).mp hx
      omega
    · rw [mem_append, mem₁, mem, mem_cons_iff]

/-- `Merge` gives ranges in order that are disjoint and not adjacent and have the same values, and `Range` calls its function for
each of these values once, from the least to the greatest, until it is told to stop. -/
theorem merge_range (sort : SortSlice t) (ranges : List (Range t)) :
    ∃ merged, merge sort ranges = some merged ∧ Separated merged ∧ (∀ x, Mem x merged ↔ Mem x ranges) ∧
      ∃ calls : List t.Value, (∀ {σ : Type} (f : σ → t.Value → Except σ σ) (s : σ), rangeEach merged f s = calls.foldlM f s) ∧
        calls.Pairwise (·.1 < ·.1) ∧ ∀ x, x ∈ calls ↔ Mem x ranges := by
  obtain ⟨merged, ok, sep, mem⟩ : ∃ merged, merge sort ranges = some merged ∧ Separated merged ∧ ∀ x, Mem x merged ↔ Mem x ranges := by
    have perm := sort.perm ranges
    have sorted := sort.sorted ranges
    unfold merge
    split
    next empty => exact ⟨[], rfl, .nil, by simp [empty]⟩
    next some =>
      cases hs : sort.sort ranges with
      | nil =>
        rw [hs] at perm
        exact absurd perm.symm.eq_nil some
      | cons last rest =>
        rw [hs] at perm sorted
        obtain ⟨array, k, run, sep, mem⟩ := @mergeRounds t rest [] [] last (pairwise_singleton ..) sorted
        rw [show ranges.length - 1 = rest.length by rw [← perm.length_eq]; rfl]
        refine ⟨_, Option.map_eq_some_iff.mpr ⟨_, run, rfl⟩, sep, fun x => (mem x).trans ?_⟩
        simp [Mem, perm.mem_iff]
  obtain ⟨calls, run, order, all⟩ := rangeEach_calls sep
  exact ⟨merged, ok, sep, mem, calls, run, order, fun x => (all x).trans (mem x)⟩

/-- Sorting by insertion. -/
def byStart (t : IntType) : SortSlice t where
  sort := insertionSort fun a b => a.start.1 ≤ b.start.1
  perm := perm_insertionSort _
  sorted ranges :=
    have : Std.Total fun a b : Range t => a.start.1 ≤ b.start.1 := ⟨fun a b => Int.le_total a.start.1 b.start.1⟩
    have : IsTrans (Range t) fun a b => a.start.1 ≤ b.start.1 := ⟨fun _ _ _ => Int.le_trans⟩
    pairwise_insertionSort _ ranges

def int8 : IntType := ⟨-128, 127, by decide⟩

/-- Two ranges that overlap, one next to them, and two that overlap up to the maximum. -/
def overlapping : List (Range int8) :=
  [newRange (int8.wrap 127) (int8.wrap 120), newRange (int8.wrap (-101)) (int8.wrap 5), newRange (int8.wrap 6) (int8.wrap 7),
    newRange (int8.wrap 100) (int8.wrap 127), newRange (int8.wrap (-128)) (int8.wrap (-100))]

theorem merge_range_extremes :
    ((merge (byStart int8) overlapping).map fun merged => merged.map fun r => (r.start.1, r.stop.1)) =
      some [(-128, 7), (100, 127)] ∧
    ∃ merged, merge (byStart int8) overlapping = some merged ∧ Separated merged ∧ (∀ x, Mem x merged ↔ Mem x overlapping) ∧
      ∃ calls : List int8.Value, (∀ {σ : Type} (f : σ → int8.Value → Except σ σ) (s : σ), rangeEach merged f s = calls.foldlM f s) ∧
        calls.Pairwise (·.1 < ·.1) ∧ ∀ x, x ∈ calls ↔ Mem x overlapping :=
  ⟨by decide, merge_range (byStart int8) overlapping⟩

section Parsing

inductive RangesError
  | tooMany
  | invalid (s : List Char)

def uint64 : IntType := ⟨0, 2 ^ 64 - 1, by decide⟩

/-- `strconv.ParseUint(s, 10, 64)`. -/
def parseUint (s : List Char) : Option uint64.Value :=
  if h : s ≠ [] ∧ s.all Char.isDigit ∧ decimalValue s < 2 ^ 64 then some ⟨decimalValue s, by simp only [uint64]; omega⟩ else none

def parseUnsigned (t : IntType) (s : List Char) : Option t.Value := (parseUint s).map fun val => t.wrap val.1

/-- `strings.Trim(s, "[ ]")`. -/
def trimBrackets (s : List Char) : List Char :=
  let cut := (['[', ' ', ']'].contains ·)
  ((s.dropWhile cut).reverse.dropWhile cut).reverse

def newIntRange (parseFn : List Char → Option t.Value) (s : List Char) : Except RangesError (Range t) :=
  let s := trimSpaceList s
  if s = [] then .ok (newRange (t.wrap 0) (t.wrap 0))
  else
    match (s.splitOn '-').map (parseFn ∘ trimBrackets) with
    | [some start] => .ok (newRange start start)
    | [some start, some stop] => .ok (newRange start stop)
    | _ => .error (.invalid s)

def newIntRangesFromList (parseFn : List Char → Option t.Value) (list : List (List Char)) : Except RangesError (List (Range t)) :=
  (list.filter (· ≠ [])).mapM (newIntRange parseFn)

def terms (expected : List Char) : List (List Char) :=
  ((trimSpaceList expected).map fun c => if c = ',' then '/' else c).splitOn '/'

def everything (expected : List Char) : Prop := trimSpaceList expected = [] ∨ trimSpaceList expected = ['*']

instance (expected : List Char) : Decidable (everything expected) := inferInstanceAs (Decidable (_ ∨ _))

def newIntRanges (parseFn : List Char → Option t.Value) (expected : List Char) : Except RangesError (List (Range t)) :=
  if everything expected then .ok []
  else if (terms expected).length > 28 then .error .tooMany
  else newIntRangesFromList parseFn (terms expected)

def newUnsignedRanges (t : IntType) : List Char → Except RangesError (List (Range t)) := newIntRanges (parseUnsigned t)

def check (ranges : List (Range t)) (status : t.Value) : Bool := ranges.isEmpty || ranges.any (·.contains status)

/-- A term is read as the numbers in it say. -/
def Reads (s : List Char) (x : Int) : Prop := ∃ r, newIntRange parseUint s = .ok r ∧ r.start.1 ≤ x ∧ x ≤ r.stop.1

/-- A term is read with its numbers reduced to the type. -/
def Wraps (t : IntType) (s : List Char) (x : Int) : Prop :=
  ∃ r, newIntRange parseUint s = .ok r ∧ min (t.wrap r.start.1).1 (t.wrap r.stop.1).1 ≤ x ∧ x ≤ max (t.wrap r.start.1).1 (t.wrap r.stop.1).1

/-- What a text lists: everything, or what one of its terms that is not blank says. -/
def Listed (expected : List Char) (x : Int) : Prop := everything expected ∨ ∃ s ∈ terms expected, trimSpaceList s ≠ [] ∧ Reads s x

/-- A term that is not blank, whose numbers are values of the type. -/
def Fits (t : IntType) (s : List Char) : Prop :=
  trimSpaceList s ≠ [] ∧ ∀ part ∈ (trimSpaceList s).splitOn '-', t.min ≤ decimalValue (trimBrackets part) ∧
    (decimalValue (trimBrackets part) : Int) ≤ t.max

def AllFit (t : IntType) (expected : List Char) : Prop :=
  everything expected ∨ (∃ s ∈ terms expected, s ≠ []) ∧ ∀ s ∈ terms expected, s ≠ [] → Fits t s

/-- The terms that do not fit say nothing wrong about the values that the terms that fit leave open. -/
def Harmless (t : IntType) (expected : List Char) : Prop :=
  everything expected ∨ (∃ s ∈ terms expected, s ≠ []) ∧ ∀ x : t.Value, (∃ s ∈ terms expected, Fits t s ∧ Reads s x.1) ∨
    ((∃ s ∈ terms expected, ¬ Fits t s ∧ s ≠ [] ∧ Wraps t s x.1) ↔
      ∃ s ∈ terms expected, ¬ Fits t s ∧ trimSpaceList s ≠ [] ∧ Reads s x.1)

theorem contains_newRange (a b x : t.Value) : (newRange a b).contains x = true ↔ min a.1 b.1 ≤ x.1 ∧ x.1 ≤ max a.1 b.1 := by
  unfold newRange Range.contains
  split <;> simp only [Bool.and_eq_true, decide_eq_true_eq, ge_iff_le] <;> omega

theorem newIntRange_wraps {s : List Char} {r : Range t} (h : newIntRange (parseUnsigned t) s = .ok r) (x : t.Value) :
    r.contains x = true ↔ Wraps t s x.1 := by
  have single : ∀ (a b : uint64.Value), newIntRange parseUint s = .ok (newRange a b) → newRange (t.wrap a.1) (t.wrap b.1) = r →
      (r.contains x = true ↔ Wraps t s x.1) := by
    rintro a b exact rfl
    rw [contains_newRange]
    simp only [Wraps, exact, Except.ok.injEq, exists_eq_left', newRange]
    split
    · rw [min_comm, max_comm]
    · rfl
  simp only [newIntRange] at h single
  split at h
  next blank =>
    rw [if_pos blank] at single
    exact single (uint64.wrap 0) (uint64.wrap 0) rfl (Except.ok.inj h)
  next some =>
    rw [if_neg some] at single
    have parts : parseUnsigned t ∘ trimBrackets = (Option.map fun val : uint64.Value => t.wrap val.1) ∘ parseUint ∘ trimBrackets := rfl
    rw [parts, ← map_map] at h
    generalize ((trimSpaceList s).splitOn '-').map (parseUint ∘ trimBrackets) = parsed at h single
    rcases parsed with _ | ⟨_ | a, _ | ⟨_ | b, _ | _⟩⟩ <;> cases h
    · exact single a a rfl rfl
    · exact single a b rfl rfl

theorem check_mapM {list : List (List Char)} {ranges : List (Range t)} (h : list.mapM (newIntRange (parseUnsigned t)) = .ok ranges)
    (x : t.Value) : check ranges x = true ↔ list = [] ∨ ∃ s ∈ list, Wraps t s x.1 := by
  have all : (ranges = [] ↔ list = []) ∧ ((∃ r ∈ ranges, r.contains x = true) ↔ ∃ s ∈ list, Wraps t s x.1) := by
    induction list generalizing ranges with
    | nil =>
      cases h
      simp
    | cons s list ih =>
      rw [mapM_cons] at h
      cases hr : newIntRange (parseUnsigned t) s with
      | error e => rw [hr] at h; cases h
      | ok r =>
        rw [hr] at h
        cases hm : list.mapM (newIntRange (parseUnsigned t)) with
        | error e => simp only [hm] at h; cases h
        | ok more =>
          simp only [hm] at h
          cases h
          simp [newIntRange_wraps hr, (ih hm).2]
  simp [check, all.1, ← all.2]

theorem value_parseUint {s : List Char} {v : uint64.Value} (h : parseUint s = some v) : v.1 = decimalValue s := by
  unfold parseUint at h
  split at h
  · cases h
    rfl
  · cases h

theorem Fits.ne_nil {s : List Char} (h : Fits t s) : s ≠ [] := by
  rintro rfl
  exact h.1 rfl

/-- A term that fits is read as it is written. -/
theorem Fits.wraps_iff {s : List Char} (h : Fits t s) (x : Int) : Wraps t s x ↔ Reads s x := by
  have ends : ∀ {r : Range uint64}, newIntRange parseUint s = .ok r → (t.wrap r.start.1).1 = r.start.1 ∧ (t.wrap r.stop.1).1 = r.stop.1 := by
    intro r hr
    have value : ∀ v, some v ∈ ((trimSpaceList s).splitOn '-').map (parseUint ∘ trimBrackets) → (t.wrap v.1).1 = v.1 := by
      intro v hv
      obtain ⟨part, mem, parsed⟩ := mem_map.mp hv
      have bounds := h.2 part mem
      rw [← value_parseUint parsed] at bounds
      exact t.wrap_of_mem bounds.1 bounds.2
    simp only [newIntRange, if_neg h.1] at hr
    generalize ((trimSpaceList s).splitOn '-').map (parseUint ∘ trimBrackets) = parsed at hr value
    rcases parsed with _ | ⟨_ | a, _ | ⟨_ | b, _ | _⟩⟩ <;> cases hr <;> unfold newRange <;> split <;> simp [value]
  refine exists_congr fun r => and_congr_right fun hr => ?_
  have := r.ordered
  rw [(ends hr).1, (ends hr).2, min_eq_left this, max_eq_right this]

theorem exists_fits_or {list : List (List Char)} {x : Int} {p : List Char → Prop} (h : ∀ s, Fits t s → (p s ↔ Reads s x)) :
    (∃ s ∈ list, p s) ↔ (∃ s ∈ list, Fits t s ∧ Reads s x) ∨ ∃ s ∈ list, ¬ Fits t s ∧ p s := by
  simp only [← exists_or, ← and_or_left]
  refine exists_congr fun s => and_congr_right fun _ => ?_
  by_cases fit : Fits t s
  · simp [fit, h s fit]
  · simp [fit]

theorem AllFit.harmless {expected : List Char} (h : AllFit t expected) : Harmless t expected := by
  refine h.imp_right fun ⟨term, fit⟩ => ⟨term, fun x => .inr (iff_of_false ?_ ?_)⟩
  · rintro ⟨s, mem, not, term, -⟩
    exact not (fit s mem term)
  · rintro ⟨s, mem, not, term, -⟩
    exact not (fit s mem fun empty => term (by rw [empty]; rfl))

/-- An accepted text whose numbers fit matches the values that it lists; any other one exactly if what does not fit is harmless. -/
theorem check_listed_iff {expected : List Char} {ranges : List (Range t)} (accepted : newUnsignedRanges t expected = .ok ranges) :
    (AllFit t expected → ∀ v, check ranges v = true ↔ Listed expected v.1) ∧
    ((∀ v, check ranges v = true ↔ Listed expected v.1) ↔ Harmless t expected) := by
  refine (and_iff_right_of_imp fun exact fit => exact.mpr fit.harmless).mpr ?_
  unfold newUnsignedRanges newIntRanges at accepted
  split at accepted
  next all =>
    cases accepted
    simp [check, Listed, Harmless, all]
  next some =>
    split at accepted
    · cases accepted
    · simp only [check_mapM accepted, filter_eq_nil_iff, mem_filter, decide_eq_true_eq, ne_eq, Decidable.not_not, and_assoc, Listed,
        Harmless, some, false_or]
      by_cases none : ∀ s ∈ terms expected, s = []
      · have blank : ∀ x, ¬ ∃ s ∈ terms expected, trimSpaceList s ≠ [] ∧ Reads s x := by
          rintro x ⟨s, mem, term, -⟩
          exact term (by rw [none s mem]; rfl)
        refine iff_of_false (fun h => blank _ ((h (t.wrap 0)).mp (.inl none))) ?_
        rintro ⟨⟨s, mem, term⟩, -⟩
        exact term (none s mem)
      · have term : ∃ s ∈ terms expected, s ≠ [] := by simpa using none
        simp only [none, false_or, term, true_and]
        refine forall_congr' fun x => ?_
        rw [exists_fits_or fun s fit => (and_iff_right fit.ne_nil).trans (fit.wraps_iff x.1),
          exists_fits_or fun s (fit : Fits t s) => and_iff_right fit.1]
        by_cases fits : ∃ s ∈ terms expected, Fits t s ∧ Reads s x.1
        · simp only [fits, true_or]
        · simp only [fits, false_or, ne_eq]

def uint16 : IntType := ⟨0, 65535, by decide⟩

/-- A list of ports that fit. -/
theorem check_listed_ports : ∃ ranges, newUnsignedRanges uint16 "80,[90-85]".toList = .ok ranges ∧
    AllFit uint16 "80,[90-85]".toList ∧ ∀ v, check ranges v = true ↔ Listed "80,[90-85]".toList v.1 := by
  have fit : AllFit uint16 "80,[90-85]".toList := by
    have parts : terms "80,[90-85]".toList = ["80".toList, "[90-85]".toList] := by decide
    refine .inr ⟨⟨_, by rw [parts]; exact mem_cons_self, by decide⟩, ?_⟩
    rw [parts]
    unfold Fits
    decide
  exact ⟨_, rfl, fit, (check_listed_iff rfl).1 fit⟩

/-- The port 65616 does not fit, and matches 80. -/
theorem check_not_listed : ∃ ranges, newUnsignedRanges uint16 "65616".toList = .ok ranges ∧ check ranges (uint16.wrap 80) = true ∧
    ¬ Listed "65616".toList 80 := by
  refine ⟨_, rfl, by decide, ?_⟩
  rintro (all | ⟨s, mem, -, r, read, low, -⟩)
  · exact absurd all (by decide)
  · obtain rfl := mem_singleton.mp (show s ∈ ["65616".toList] from mem)
    cases read
    exact absurd low (by decide)

end Parsing

end AsterCore.Utils
