import AsterCore.DomainPatterns
import AsterCore.DomainSet

namespace AsterCore.Trie

open List DomainTrie

variable {T : Type}

/-- A label as it stands in a key. -/
def keyLabel (l : Label) : List UInt8 := if l = dotWildcard then complexWildcard else reverseRunes l

/-- The key of a pattern, from its labels from the right. -/
def key (path : List Label) : List UInt8 := [domainStep].intercalate (path.map keyLabel)

/-- The bytes of a label that `ValidAndSplitDomain` accepts. -/
structure GoodLabel (l : Label) : Prop where
  text : ∃ cs, l = encode cs
  noStep : domainStep ∉ l
  noPlus : 43 ∉ l
  star : 42 ∈ l → l = wildcard

/-- The labels from the right of a pattern in the trie: only the last may be empty, and not the first. -/
structure Stored (path : List Label) : Prop where
  labels : ∀ l ∈ path, GoodLabel l
  named : ∀ l ∈ path.dropLast, l ≠ []
  first : ∃ l rest, path = l :: rest ∧ l ≠ []

variable {u : Unicode} {domain : List UInt8} {l : Label} {path ls : List Label} {ops : List (Op T)} {t : DomainTrie T}

theorem parts_text {parts : List Label} (hv : validAndSplitDomain u domain = some parts) :
    parts = (((runes domain).map u.toLower).splitOn '.').map encode := by
  obtain ⟨rfl, _⟩ := validAndSplitDomain_eq hv
  rw [u.lower_eq]
  exact splitOn_encode _

theorem goodLabel_of_part {parts : List Label}
    (hv : validAndSplitDomain u domain = some parts) (mem : l ∈ parts) (hp : 43 ∉ l) : GoodLabel l where
  text := by
    rw [parts_text hv] at mem
    obtain ⟨cs, _, rfl⟩ := mem_map.mp mem
    exact ⟨cs, rfl⟩
  noStep := by
    obtain ⟨rfl, _⟩ := validAndSplitDomain_eq hv
    exact not_mem_of_mem_splitOn mem
  noPlus := hp
  star := (validAndSplitDomain_wellFormed hv).stars l mem

theorem goodLabel_nil : GoodLabel [] := ⟨⟨[], rfl⟩, by simp, by simp, by simp⟩

theorem stored_concat {front : List Label} {last : Label} (hg : ∀ l ∈ front, GoodLabel l ∧ l ≠ []) (end_ : GoodLabel last)
    (ha : front = [] → last ≠ []) : Stored (front ++ [last]) where
  labels := by
    intro l mem
    rcases mem_append.mp mem with ht | hh
    · exact (hg l ht).1
    · exact mem_singleton.mp hh ▸ end_
  named := by
    rw [dropLast_concat]
    exact fun l mem => (hg l mem).2
  first := by
    cases front with
    | nil => exact ⟨last, [], rfl, ha rfl⟩
    | cons l front => exact ⟨l, front ++ [last], rfl, (hg l (by simp)).2⟩

/-- The paths an insertion sets are of this form. -/
theorem stored_of_sets (set : path ∈ sets u domain) : Stored path := by
  unfold sets at set
  split at set
  next valid =>
    have formed := validAndSplitDomain_wellFormed valid
    obtain ⟨first, rest, rfl⟩ := exists_cons_of_ne_nil formed.nonempty
    have tail : ∀ l ∈ rest.reverse, GoodLabel l ∧ l ≠ [] := by
      intro l mem
      have later := mem_reverse.mp mem
      exact ⟨goodLabel_of_part valid (by simp [later]) (formed.tail l later).2, (formed.tail l later).1⟩
    have plain : ∀ l ∈ rest.reverse, l ≠ complexWildcard := fun l mem => ne_plus_of_not_mem (tail l mem).1.noPlus
    rw [reverse_cons] at set
    by_cases plus : first = complexWildcard
    · subst plus
      rw [paths_of_last_plus plain] at set
      have several : rest.reverse ≠ [] := by
        intro none
        rw [reverse_eq_nil_iff.mp none] at formed
        exact (formed.alone complexWildcard rfl).2 (by simp [complexWildcard])
      simp only [mem_cons, not_mem_nil, or_false] at set
      rcases set with rfl | rfl
      · obtain ⟨_, last, eq⟩ := (eq_nil_or_concat rest.reverse).resolve_left several
        rw [eq, concat_eq_append] at tail ⊢
        exact stored_concat (fun l mem => tail l (by simp [mem])) (tail last (by simp)).1 fun _ => (tail last (by simp)).2
      · exact stored_concat tail goodLabel_nil fun none => absurd none several
    · have noPlus : 43 ∉ first := fun inside => plus (formed.head first rfl inside)
      have none : ∀ l ∈ rest.reverse ++ [first], l ≠ complexWildcard := by
        intro l mem
        rcases mem_append.mp mem with there | here
        · exact plain l there
        · exact mem_singleton.mp here ▸ plus
      rw [paths_of_no_plus none, mem_singleton] at set
      subst set
      refine stored_concat tail (goodLabel_of_part valid (by simp) noPlus) fun empty => ?_
      rw [reverse_eq_nil_iff.mp empty] at formed
      exact (formed.alone first rfl).1
  · cases set

theorem reverseRunes_ne_nil (hg : GoodLabel l) (hn : l ≠ []) : reverseRunes l ≠ [] := by
  obtain ⟨_, rfl⟩ := hg.text
  rw [reverseRunes_encode]
  intro none
  have := encode_injective (none.trans encode_nil.symm)
  rw [reverse_eq_nil_iff.mp this] at hn
  exact hn rfl

theorem reverseRunes_injective {m : Label} (hl : GoodLabel l) (hr : GoodLabel m) (hs : reverseRunes l = reverseRunes m) :
    l = m := by
  obtain ⟨_, rfl⟩ := hl.text
  obtain ⟨_, rfl⟩ := hr.text
  rw [reverseRunes_encode, reverseRunes_encode] at hs
  rw [reverse_injective (encode_injective hs)]

/-- Reversal keeps the ASCII bytes. -/
theorem mem_reverseRunes (ht : ∃ cs, l = encode cs) {b : UInt8} (hs : b < 128) : b ∈ reverseRunes l ↔ b ∈ l := by
  obtain ⟨_, rfl⟩ := ht
  rw [reverseRunes_encode, mem_encode_ascii hs, mem_encode_ascii hs, mem_reverse]

theorem step_not_mem_keyLabel (hg : GoodLabel l) : domainStep ∉ keyLabel l := by
  unfold keyLabel
  split
  · simp [complexWildcard, domainStep]
  · rw [mem_reverseRunes hg.text (by decide)]
    exact hg.noStep

theorem keyLabel_injective {m : Label} (hl : GoodLabel l) (hr : GoodLabel m) (hs : keyLabel l = keyLabel m) : l = m := by
  have hp : ∀ {l : Label}, GoodLabel l → reverseRunes l ≠ complexWildcard := by
    intro l hg eq
    refine hg.noPlus ((mem_reverseRunes hg.text (by decide)).mp ?_)
    rw [eq]
    simp [complexWildcard]
  unfold keyLabel at hs
  split at hs
  next dot =>
    split at hs
    next dot' => rw [dot, dot']
    · exact absurd hs.symm (hp hr)
  · split at hs
    · exact absurd hs (hp hl)
    · exact reverseRunes_injective hl hr hs

theorem map_keyLabel_injective {p q : List Label} (hl : ∀ l ∈ p, GoodLabel l) (hr : ∀ l ∈ q, GoodLabel l)
    (hs : p.map keyLabel = q.map keyLabel) : p = q := by
  induction p generalizing q with
  | nil =>
    cases q with
    | nil => rfl
    | cons => cases hs
  | cons l _ ih =>
    cases q with
    | nil => cases hs
    | cons m =>
      obtain ⟨hf, rest⟩ := cons.inj hs
      rw [keyLabel_injective (hl l (by simp)) (hr m (by simp)) hf,
        ih (fun x mem => hl x (by simp [mem])) (fun x mem => hr x (by simp [mem])) rest]

theorem key_injective {p q : List Label} (hl : Stored p) (hr : Stored q) (same : key p = key q) : p = q := by
  have hsp : ∀ {r : List Label}, Stored r → (key r).splitOn domainStep = r.map keyLabel := by
    intro r hs
    obtain ⟨l, _, rfl, _⟩ := hs.first
    refine splitOn_intercalate domainStep (fun m mem => ?_) (by simp)
    obtain ⟨n, ht, rfl⟩ := mem_map.mp mem
    exact step_not_mem_keyLabel (hs.labels n ht)
  exact map_keyLabel_injective hl.labels hr.labels (by rw [← hsp hl, same, hsp hr])

theorem exists_texts (ht : ∀ l ∈ ls, ∃ cs, l = encode cs) : ∃ css : List (List Char), ls = css.map encode := by
  induction ls with
  | nil => exact ⟨[], rfl⟩
  | cons l _ ih =>
    obtain ⟨cs, rfl⟩ := ht l (by simp)
    obtain ⟨css, rfl⟩ := ih fun m mem => ht m (by simp [mem])
    exact ⟨cs :: css, rfl⟩

/-- The reversal of a domain joins the reversed labels from the right. -/
theorem reverseRunes_joinDomain (ht : ∀ l ∈ ls, ∃ cs, l = encode cs) :
    reverseRunes (joinDomain ls.reverse) = [domainStep].intercalate (ls.map reverseRunes) := by
  obtain ⟨css, rfl⟩ := exists_texts ht
  have hj : joinDomain (css.map encode).reverse = encode (['.'].intercalate css.reverse) := by
    rw [encode_intercalate, map_reverse]
    rfl
  rw [hj, reverseRunes_encode, reverse_intercalate, reverse_reverse, encode_intercalate, map_map, map_map]
  refine congrArg _ (map_congr_left fun cs _ => ?_)
  exact (reverseRunes_encode cs).symm

theorem joinDomain_cons (hm : ls ≠ []) : joinDomain (l :: ls) = l ++ domainStep :: joinDomain ls := by
  obtain ⟨m, _, rfl⟩ := exists_cons_of_ne_nil hm
  simp [joinDomain]

/-- The internal key of a pattern of the trie. -/
theorem domainKey_joinDomain (stored : Stored path) : domainKey (joinDomain path.reverse) = key path := by
  obtain ⟨l, _, shape, named⟩ := stored.first
  obtain ⟨front, last, eq⟩ := (eq_nil_or_concat path).resolve_left (by simp [shape])
  rw [concat_eq_append] at eq
  have inner : ∀ m ∈ front, m ≠ [] := fun m mem => stored.named m (by simpa [eq] using mem)
  have labels : front.map keyLabel = front.map reverseRunes :=
    map_congr_left fun m mem => if_neg (inner m mem)
  have text : ∀ m ∈ path, ∃ cs, m = encode cs := fun m mem => (stored.labels m mem).text
  have order : path.reverse = last :: front.reverse := by simp [eq]
  by_cases dot : last = []
  · have several : front.reverse ≠ [] := by
      intro none
      rw [eq, dot, reverse_eq_nil_iff.mp none] at shape
      exact named (cons.inj shape).1.symm
    have starts : joinDomain path.reverse = domainStep :: joinDomain front.reverse := by
      rw [order, joinDomain_cons several, dot]
      rfl
    have plus : complexWildcard ++ joinDomain path.reverse = joinDomain (front ++ [complexWildcard]).reverse := by
      rw [starts, reverse_append, reverse_singleton, singleton_append, joinDomain_cons several]
    rw [domainKey, if_pos (by rw [starts]; rfl), plus, reverseRunes_joinDomain]
    · rw [key, eq, map_append, map_append, labels, dot]
      rfl
    · intro m mem
      rcases mem_append.mp mem with there | here
      · exact text m (by simp [eq, there])
      · exact ⟨['+'], mem_singleton.mp here⟩
  · have head : (joinDomain path.reverse).head? ≠ some domainStep := by
      obtain ⟨b, _, byte⟩ := exists_cons_of_ne_nil dot
      have other : b ≠ domainStep := fun same => (stored.labels last (by simp [eq])).noStep (by simp [byte, same])
      by_cases alone : front.reverse = []
      · simpa [order, alone, joinDomain, byte] using other
      · rw [order, joinDomain_cons alone, byte]
        simpa using other
    rw [domainKey, if_neg head, reverseRunes_joinDomain text, key, eq, map_append, map_append, labels]
    simp [keyLabel, dotWildcard, dot]

theorem asciiLower_of_lowered {cs : List Char} (hl : ∀ c ∈ cs, c.toLower = c) : (encode cs).map asciiLower = encode cs := by
  refine (map_congr_left fun b mem => ?_).trans (map_id _)
  by_cases hs : b < 128
  · exact forall_ascii (p := fun b => (Char.ofUInt8 b).toLower = Char.ofUInt8 b → asciiLower b = b) (by decide) hs
      (hl _ ((mem_encode_ascii hs cs).mp mem))
  · have hla : ¬ b ≤ 90 := by
      rw [UInt8.le_iff_toNat_le]
      rw [UInt8.lt_iff_toNat_lt] at hs
      simp at hs ⊢
      omega
    simp [asciiLower, hla]

/-- The key of any host as `Has` reads it: the labels from the right. -/
theorem revLower_labels (u : Unicode) (host : List UInt8) :
    revLower u host = [domainStep].intercalate (((u.lower host).splitOn domainStep).reverse.map reverseRunes) := by
  have texts : (u.lower host).splitOn domainStep = (((runes host).map u.toLower).splitOn '.').map encode := by
    rw [u.lower_eq]
    exact splitOn_encode _
  have whole : joinDomain ((u.lower host).splitOn domainStep) = encode ((runes host).map u.toLower) := by
    rw [texts, joinDomain]
    show [46].intercalate _ = _
    rw [← encode_intercalate, intercalate_splitOn]
  have text : ∀ l ∈ ((u.lower host).splitOn domainStep).reverse, ∃ cs, l = encode cs := by
    intro l mem
    rw [mem_reverse, texts] at mem
    obtain ⟨cs, _, rfl⟩ := mem_map.mp mem
    exact ⟨cs, rfl⟩
  rw [← reverseRunes_joinDomain text, reverse_reverse, whole, reverseRunes_encode, ← map_reverse]
  unfold revLower
  split
  · rw [reverse_reverse, u.lower_eq, reverseRunes, runes_encode]
    refine asciiLower_of_lowered fun c mem => ?_
    obtain ⟨d, _, rfl⟩ := mem_map.mp mem
    exact u.lowered d
  next all =>
    have small : ∀ b ∈ host, b < 128 := by simpa using all
    have lowered : ∀ b ∈ host.reverse.map asciiLower, b < 128 := by
      intro b mem
      obtain ⟨a, there, rfl⟩ := mem_map.mp mem
      exact asciiLower_small (small a (mem_reverse.mp there))
    rw [runes_ascii small, ← encode_ascii lowered, ← map_reverse, map_map, map_map]
    refine congrArg encode (map_congr_left fun b mem => ?_)
    show Char.ofUInt8 (asciiLower b) = u.toLower (Char.ofUInt8 b)
    have here := small b (mem_reverse.mp mem)
    rw [u.ascii _ (ofUInt8_small here), toLower_ofUInt8 here]

/-- The values of a trie stand at the paths of its insertions. -/
theorem run_at_isSome (ran : run u {} ops = some t) (path : List Label) :
    (∃ v, t.root.at path = some v) ↔ ∃ e ∈ inserts ops, path ∈ sets u e.1 := by
  have hs : (({} : DomainTrie T).root.at path) = none := by cases path <;> rfl
  rw [run_at ran, hs, Option.or_none]
  constructor
  · rintro ⟨v, hv⟩
    obtain ⟨i, _, hh, set, _⟩ := latest_eq_some.mp hv
    exact ⟨_, mem_of_getElem? hh, set⟩
  · rintro ⟨e, mem, set⟩
    refine Option.ne_none_iff_exists'.mp fun hn => ?_
    exact latest_eq_none.mp hn e mem set

theorem run_stored (ran : run u {} ops = some t) {v : T} (hv : t.root.at path = some v) : Stored path := by
  obtain ⟨e, _, set⟩ := (run_at_isSome ran path).mp ⟨v, hv⟩
  exact stored_of_sets set

theorem run_root_distinct (ran : run u {} ops = some t) : t.root.Distinct :=
  run_distinct ran trivial

theorem domainKeys_eq (t : DomainTrie T) :
    (t.foreach.map fun e => domainKey e.1) = ((t.root.recursion []).map Prod.fst).map fun items => domainKey
    (joinDomain items) := by
  simp [foreach]

theorem keys_nodup (ran : run u {} ops = some t) : (t.foreach.map fun e => domainKey e.1).Nodup := by
  have hd := run_root_distinct ran
  rw [domainKeys_eq]
  refine (Node.nodup_recursion t.root hd []).map_on ?_
  have hs : ∀ items ∈ (t.root.recursion []).map Prod.fst, Stored items.reverse := by
    intro _ mem
    obtain ⟨e, ht, rfl⟩ := mem_map.mp mem
    exact run_stored ran ((mem_recursion hd e.1 e.2).mp ht).2
  intro a hl b hr same
  have hl' := hs a hl
  have hr' := hs b hr
  have hk := domainKey_joinDomain hl'
  have hk' := domainKey_joinDomain hr'
  rw [reverse_reverse] at hk hk'
  exact reverse_injective (key_injective hl' hr' (by rw [← hk, ← hk', same]))

/-- The keys are those of the paths that have a value. -/
theorem mem_sortedKeys (ran : run u {} ops = some t) (w : List UInt8) :
    w ∈ sortedKeys t ↔ ∃ path, (∃ e ∈ inserts ops, path ∈ sets u e.1) ∧ w = key path := by
  have distinct := run_root_distinct ran
  rw [sortedKeys, (perm_insertionSort (· ≤ ·) _).mem_iff, domainKeys_eq]
  constructor
  · intro mem
    obtain ⟨items, there, rfl⟩ := mem_map.mp mem
    obtain ⟨⟨items, v⟩, here, rfl⟩ := mem_map.mp there
    have value := ((mem_recursion distinct items v).mp here).2
    have keys := domainKey_joinDomain (run_stored ran value)
    rw [reverse_reverse] at keys
    exact ⟨items.reverse, (run_at_isSome ran _).mp ⟨v, value⟩, keys⟩
  · rintro ⟨path, set, rfl⟩
    obtain ⟨v, value⟩ := (run_at_isSome ran path).mpr set
    have stored := run_stored ran value
    refine mem_map.mpr ⟨path.reverse, mem_map.mpr ⟨(path.reverse, v), ?_, rfl⟩, domainKey_joinDomain stored⟩
    refine (mem_recursion distinct _ _).mpr ⟨?_, by rw [reverse_reverse]; exact value⟩
    obtain ⟨l, _, rfl, _⟩ := stored.first
    simp

end AsterCore.Trie
