import AsterCore.DomainSearch

namespace AsterCore.Trie

open List Option Entries Children Node

variable {T : Type}

def Entries.keys : Entries T → List Label
  | .nil => []
  | .cons key _ rest => key :: rest.keys

mutual

/-- No key stands twice in a `childMap`. -/
def Node.Distinct : Node T → Prop
  | .mk _ children => children.Distinct

def Children.Distinct : Children T → Prop
  | .empty => True
  | .single _ childNode => childNode.Distinct
  | .map childMap => childMap.Distinct

def Entries.Distinct : Entries T → Prop
  | .nil => True
  | .cons key child rest => key ∉ rest.keys ∧ child.Distinct ∧ rest.Distinct

end

theorem Entries.mem_keys_put (entries : Entries T) (s r : Label) (node : Node T) :
    r ∈ (entries.put s node).keys ↔ r = s ∨ r ∈ entries.keys :=
  match entries with
  | .nil => by simp [put, keys]
  | .cons key child rest => by
    simp only [put]
    split
    next hs => simp [keys, hs]
    · simp [keys, rest.mem_keys_put s r node, or_left_comm]

theorem Entries.distinct_put {entries : Entries T} (hd : entries.Distinct) (s : Label) {node : Node T}
    (hg : node.Distinct) : (entries.put s node).Distinct :=
  match entries, hd with
  | .nil, _ => ⟨by simp [keys], hg, trivial⟩
  | .cons key child rest, hd => by
    simp only [put]
    split
    · exact ⟨hd.1, hg, hd.2.2⟩
    next ho =>
      refine ⟨?_, hd.2.1, distinct_put hd.2.2 s hg⟩
      rw [rest.mem_keys_put, not_or]
      exact ⟨ho, hd.1⟩

variable {c : Node T} {children : Children T}

variable {s : Label}

theorem Entries.distinct_get {entries : Entries T} (hd : entries.Distinct) (hf : entries.get s = some c) : c.Distinct :=
  match entries, hd, hf with
  | .cons key child rest, hd, hf => by
    simp only [get] at hf
    split at hf
    · cases hf
      exact hd.2.1
    · exact distinct_get hd.2.2 hf

theorem Children.distinct_getChild (hd : children.Distinct) (hf : children.getChild s = some c) : c.Distinct := by
  cases children with
  | empty => cases hf
  | single =>
    simp only [getChild] at hf
    split at hf <;> cases hf
    exact hd
  | map => exact distinct_get hd hf

theorem Children.distinct_setChild (hd : children.Distinct) (s : Label)
    (hg : c.Distinct) : (children.setChild s c).Distinct := by
  cases children with
  | empty => trivial
  | single =>
    simp only [setChild]
    split
    · exact hg
    · exact hd
  | map => exact distinct_put hd s hg

theorem Children.distinct_addChild (hd : children.Distinct) (s : Label)
    (hg : c.Distinct) : (children.addChild s c).Distinct := by
  cases children with
  | empty => exact hg
  | single childStr childNode =>
    have one : (Entries.cons childStr childNode .nil).Distinct := ⟨by simp [Entries.keys], hd, trivial⟩
    exact distinct_put one s hg
  | map => exact distinct_put hd s hg

theorem Node.distinct_insert {n : Node T} (hd : n.Distinct) (parts : List Label) (data : T) :
    (n.insert parts data).Distinct := by
  induction parts generalizing n with
  | nil =>
    obtain ⟨_, _⟩ := n
    exact hd
  | cons part _ ih =>
    obtain ⟨_, _⟩ := n
    simp only [insert]
    split
    next hf => exact distinct_setChild hd part (ih (distinct_getChild hd hf))
    · exact distinct_addChild hd part (ih (n := newNode) trivial)

theorem Entries.keys_optimize (entries : Entries T) : entries.optimize.keys = entries.keys :=
  match entries with
  | .nil => rfl
  | .cons key child rest => by simp only [optimize, keys, rest.keys_optimize]

mutual

theorem Node.distinct_optimize : ∀ n : Node T, n.Distinct → n.optimize.Distinct
  | .mk _ children, hd => Children.distinct_optimize children hd

theorem Children.distinct_optimize : ∀ children : Children T, children.Distinct → children.optimize.Distinct
  | .empty, _ => trivial
  | .single _ childNode, hd => Node.distinct_optimize childNode hd
  | .map .nil, _ => trivial
  | .map (.cons _ child .nil), hd => Node.distinct_optimize child hd.2.1
  | .map (.cons _ child (.cons key' child' rest)), hd =>
    ⟨by simpa only [Entries.keys, rest.keys_optimize] using hd.1, Node.distinct_optimize child hd.2.1,
      by simpa only [rest.keys_optimize] using hd.2.2.1, Node.distinct_optimize child' hd.2.2.2.1,
      Entries.distinct_optimize rest hd.2.2.2.2⟩

theorem Entries.distinct_optimize : ∀ entries : Entries T, entries.Distinct → entries.optimize.Distinct
  | .nil, _ => trivial
  | .cons _ child rest, hd =>
    ⟨by simpa only [rest.keys_optimize] using hd.1, Node.distinct_optimize child hd.2.1,
      Entries.distinct_optimize rest hd.2.2⟩

end

theorem run_distinct {u : Unicode} {t t' : DomainTrie T} {ops : List (Op T)} (ran : run u t ops = some t')
    (hd : t.root.Distinct) : t'.root.Distinct := by
  induction ops generalizing t with
  | nil =>
    cases ran
    exact hd
  | cons op _ ih =>
    cases op with
    | insert =>
      obtain ⟨_, hi, hr⟩ := bind_eq_some_iff.mp ran
      refine ih hr ?_
      unfold DomainTrie.insert at hi
      split at hi
      · cases hi
      next parts _ =>
        split at hi <;> cases hi
        · exact distinct_insert (distinct_insert hd _ _) _ _
        · exact distinct_insert hd _ _
    | optimize => exact ih ran (distinct_optimize t.root hd)

/-- What `recursion` emits for a child and the nodes below it. -/
theorem mem_below {child : Node T} {key : Label} {items : List Label} (hb : ∀ e, e ∈ child.recursion (key :: items) ↔
      ∃ s path, child.at (s :: path) = some e.2 ∧ e.1 = (s :: path).reverse ++ key :: items) (e : List Label × T) :
    e ∈ (child.data.map fun d => (key :: items, d)).toList ++ child.recursion (key :: items) ↔
      ∃ path, child.at path = some e.2 ∧ e.1 = (key :: path).reverse ++ items := by
  rw [mem_append, hb]
  constructor
  · rintro (hh | ⟨s, path, hv, eq⟩)
    · obtain ⟨d, hd, rfl⟩ := map_eq_some_iff.mp (mem_toList.mp hh)
      exact ⟨[], hd, by simp⟩
    · exact ⟨s :: path, hv, by simpa using eq⟩
  · rintro ⟨path, hv, eq⟩
    cases path with
    | nil =>
      left
      refine mem_toList.mpr (map_eq_some_iff.mpr ⟨e.2, hv, ?_⟩)
      exact Prod.ext (by simpa using eq.symm) rfl
    | cons s path => exact .inr ⟨s, path, hv, by simpa using eq⟩

theorem Entries.get_of_not_mem {entries : Entries T} (ha : s ∉ entries.keys) : entries.get s = none :=
  match entries, ha with
  | .nil, _ => rfl
  | .cons key child rest, ha => by
    rw [keys, mem_cons, not_or] at ha
    simp only [get]
    rw [if_neg (fun eq => ha.1 eq.symm)]
    exact get_of_not_mem ha.2

mutual

/-- `recursion` emits the values at the paths below the node. -/
theorem Node.mem_recursion : ∀ (n : Node T) (_ : n.Distinct) (items : List Label) (e : List Label × T),
    e ∈ n.recursion items ↔ ∃ s path, n.at (s :: path) = some e.2 ∧ e.1 = (s :: path).reverse ++ items
  | .mk data children, distinct, items, e => by
    rw [Node.recursion, Children.mem_recursion children distinct items e]
    constructor
    · rintro ⟨s, path, c, child, value, eq⟩
      refine ⟨s, path, ?_, eq⟩
      rw [Node.at_cons, Node.getChild, Node.children, child]
      exact value
    · rintro ⟨s, path, value, eq⟩
      obtain ⟨c, child, value⟩ := bind_eq_some_iff.mp value
      exact ⟨s, path, c, child, value, eq⟩

theorem Children.mem_recursion : ∀ (children : Children T) (_ : children.Distinct) (items : List Label) (e : List Label × T),
    e ∈ children.recursion items ↔
      ∃ s path c, children.getChild s = some c ∧ c.at path = some e.2 ∧ e.1 = (s :: path).reverse ++ items
  | .empty, _, items, e => by simp [Children.recursion, Children.getChild]
  | .single childStr childNode, distinct, items, e => by
    rw [Children.recursion, mem_below (Node.mem_recursion childNode distinct (childStr :: items))]
    constructor
    · rintro ⟨path, value, eq⟩
      exact ⟨childStr, path, childNode, by simp [Children.getChild], value, eq⟩
    · rintro ⟨s, path, c, child, value, eq⟩
      simp only [Children.getChild] at child
      split at child <;> cases child
      next hs =>
        subst hs
        exact ⟨path, value, eq⟩
  | .map childMap, distinct, items, e => Entries.mem_recursion childMap distinct items e

theorem Entries.mem_recursion : ∀ (entries : Entries T) (_ : entries.Distinct) (items : List Label) (e : List Label × T),
    e ∈ entries.recursion items ↔
      ∃ s path c, entries.get s = some c ∧ c.at path = some e.2 ∧ e.1 = (s :: path).reverse ++ items
  | .nil, _, items, e => by simp [Entries.recursion, Entries.get]
  | .cons key child rest, distinct, items, e => by
    rw [Entries.recursion, List.mem_append, mem_below (Node.mem_recursion child distinct.2.1 (key :: items)),
      Entries.mem_recursion rest distinct.2.2 items e]
    constructor
    · rintro (⟨path, value, eq⟩ | ⟨s, path, c, found, value, eq⟩)
      · exact ⟨key, path, child, by simp [Entries.get], value, eq⟩
      · refine ⟨s, path, c, ?_, value, eq⟩
        simp only [Entries.get]
        rw [if_neg, found]
        rintro rfl
        rw [Entries.get_of_not_mem distinct.1] at found
        cases found
    · rintro ⟨s, path, c, found, value, eq⟩
      simp only [Entries.get] at found
      split at found
      next hs =>
        cases found
        subst hs
        exact .inl ⟨path, value, eq⟩
      · exact .inr ⟨s, path, c, found, value, eq⟩

end

/-- The labels of a child and of the nodes below it are distinct. -/
theorem nodup_below {child : Node T} (hd : child.Distinct) {key : Label} {items : List Label}
    (hb : ((child.recursion (key :: items)).map Prod.fst).Nodup) :
    (((child.data.map fun d => (key :: items, d)).toList ++ child.recursion (key :: items)).map Prod.fst).Nodup := by
  rw [map_append]
  refine nodup_append.mpr ⟨?_, hb, ?_⟩
  · cases child.data <;> simp
  · intro a left b hr hs
    subst hs
    obtain ⟨e, hh, rfl⟩ := mem_map.mp left
    obtain ⟨d, _, rfl⟩ := map_eq_some_iff.mp (mem_toList.mp hh)
    obtain ⟨e', ht, eq⟩ := mem_map.mp hr
    obtain ⟨s, _, _, hl⟩ := (child.mem_recursion hd (key :: items) e').mp ht
    have hlo := congrArg length (eq.symm.trans hl)
    simp at hlo
    omega

theorem Entries.mem_keys_of_get {entries : Entries T} {c : Node T} (hf : entries.get s = some c) : s ∈ entries.keys := by
  by_contra ha
  rw [get_of_not_mem ha] at hf
  cases hf

mutual

theorem Node.nodup_recursion : ∀ (n : Node T) (_ : n.Distinct) (items : List Label), ((n.recursion items).map Prod.fst).Nodup
  | .mk _ children, distinct, items => Children.nodup_recursion children distinct items

theorem Children.nodup_recursion : ∀ (children : Children T) (_ : children.Distinct) (items : List Label),
    ((children.recursion items).map Prod.fst).Nodup
  | .empty, _, _ => by simp [Children.recursion]
  | .single childStr childNode, distinct, items =>
    nodup_below distinct (Node.nodup_recursion childNode distinct (childStr :: items))
  | .map childMap, distinct, items => Entries.nodup_recursion childMap distinct items

theorem Entries.nodup_recursion : ∀ (entries : Entries T) (_ : entries.Distinct) (items : List Label),
    ((entries.recursion items).map Prod.fst).Nodup
  | .nil, _, _ => by simp [Entries.recursion]
  | .cons key child rest, distinct, items => by
    rw [Entries.recursion, List.map_append]
    refine List.nodup_append.mpr ⟨nodup_below distinct.2.1 (Node.nodup_recursion child distinct.2.1 (key :: items)),
      Entries.nodup_recursion rest distinct.2.2 items, ?_⟩
    intro a left b right same
    subst same
    obtain ⟨e, here, rfl⟩ := mem_map.mp left
    obtain ⟨e', there, eq⟩ := mem_map.mp right
    obtain ⟨_, _, labels⟩ := (mem_below (Node.mem_recursion child distinct.2.1 (key :: items)) e).mp here
    obtain ⟨s, _, c, found, _, hl'⟩ := (Entries.mem_recursion rest distinct.2.2 items e').mp there
    rw [labels, hl'] at eq
    have last := congrArg head? (reverse_injective (append_cancel_right eq))
    have key_eq : s = key := by simpa using last
    exact distinct.1 (key_eq ▸ Entries.mem_keys_of_get found)

end

theorem DomainTrie.mem_recursion {t : DomainTrie T} (hd : t.root.Distinct) (items : List Label) (v : T) :
    (items, v) ∈ t.root.recursion [] ↔ items ≠ [] ∧ t.root.at items.reverse = some v := by
  rw [Node.mem_recursion t.root hd]
  simp only [append_nil]
  constructor
  · rintro ⟨s, _, hv, rfl⟩
    exact ⟨by simp, by simpa using hv⟩
  · rintro ⟨some, hv⟩
    obtain ⟨s, path, eq⟩ := exists_cons_of_ne_nil (l := items.reverse) (by simpa using some)
    exact ⟨s, path, eq ▸ hv, by rw [← eq, reverse_reverse]⟩

end AsterCore.Trie
