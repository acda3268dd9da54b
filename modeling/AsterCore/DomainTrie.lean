import AsterCore.GoRunes

namespace AsterCore.Trie

abbrev Label := List UInt8

def wildcard : Label := [42]
def dotWildcard : Label := []
def complexWildcard : Label := [43]
def domainStep : UInt8 := 46

/-- The check of one label: `+` only as the whole first of several labels, `*` only as a whole label. -/
def validPart (count i : Nat) (part : Label) : Bool :=
  !(part.contains 43 && (part ≠ complexWildcard || i ≠ 0 || count == 1)) && !(part.contains 42 && part ≠ wildcard)

def validParts (parts : List Label) : Bool :=
  (if parts.length = 1 then parts.head? ≠ some [] else parts.tail.all (· ≠ [])) &&
    (List.range parts.length).all fun i => (parts[i]?).all (validPart parts.length i)

def validAndSplitDomain (u : Unicode) (domain : List UInt8) : Option (List Label) :=
  if domain.getLast? = some domainStep then none
  else if domain ≠ [] ∧ u.isSpace (decodeRune domain).1 then none
  else if domain ≠ [] ∧ u.isSpace (decodeLastRune domain) then none
  else if validParts ((u.lower domain).splitOn domainStep) then some ((u.lower domain).splitOn domainStep)
  else none

mutual

/-- A node, with its data once it is `inited`. -/
inductive Node (T : Type) where
  | mk (data : Option T) (children : Children T)

/-- No child, the only child in `childStr` and `childNode`, or the children in `childMap`. -/
inductive Children (T : Type) where
  | empty
  | single (childStr : Label) (childNode : Node T)
  | map (childMap : Entries T)

inductive Entries (T : Type) where
  | nil
  | cons (key : Label) (child : Node T) (rest : Entries T)

end

variable {T : Type}

def Node.data : Node T → Option T
  | .mk data _ => data

def Node.children : Node T → Children T
  | .mk _ children => children

def newNode : Node T := .mk none .empty

def Node.inited (n : Node T) : Bool := n.data.isSome

def Entries.get : Entries T → Label → Option (Node T)
  | .nil, _ => none
  | .cons key child rest, s => if key = s then some child else rest.get s

def Entries.put : Entries T → Label → Node T → Entries T
  | .nil, s, node => .cons s node .nil
  | .cons key child rest, s, node => if key = s then .cons key node rest else .cons key child (rest.put s node)

def Children.getChild : Children T → Label → Option (Node T)
  | .empty, _ => none
  | .single childStr childNode, s => if childStr = s then some childNode else none
  | .map childMap, s => childMap.get s

def Children.addChild : Children T → Label → Node T → Children T
  | .empty, s, child => .single s child
  | .single childStr childNode, s, child => .map ((Entries.cons childStr childNode .nil).put s child)
  | .map childMap, s, child => .map (childMap.put s child)

/-- What a change of the node behind a child pointer does to its parent. -/
def Children.setChild : Children T → Label → Node T → Children T
  | .empty, _, _ => .empty
  | .single childStr childNode, s, child => if childStr = s then .single childStr child else .single childStr childNode
  | .map childMap, s, child => .map (childMap.put s child)

def Node.getChild (n : Node T) (s : Label) : Option (Node T) := n.children.getChild s

def Node.setData : Node T → T → Node T
  | .mk _ children, data => .mk (some data) children

/-- The walk of `insert` from a node: `getOrNewChild` for each label, then `setData`. -/
def Node.insert : Node T → List Label → T → Node T
  | n, [], data => n.setData data
  | n, part :: parts, data =>
    match n.getChild part with
    | some child => .mk n.data (n.children.setChild part (child.insert parts data))
    | none => .mk n.data (n.children.addChild part (newNode.insert parts data))

/-- A result of `search`, or the next one when it is nil or a node without data. -/
def unlessEmpty (found next : Option (Node T)) : Option (Node T) :=
  match found.filter Node.inited with
  | some n => some n
  | none => next

/-- `search`, on the labels from the right. -/
def Node.search : Node T → List Label → Option (Node T)
  | n, [] => some n
  | n, part :: parts =>
    unlessEmpty ((n.getChild part).bind fun c => c.search parts)
      (unlessEmpty ((n.getChild wildcard).bind fun c => c.search parts) (n.getChild dotWildcard))

mutual

def Node.optimize : Node T → Node T
  | .mk data children => .mk data children.optimize

def Children.optimize : Children T → Children T
  | .empty => .empty
  | .single childStr childNode => .single childStr childNode.optimize
  | .map .nil => .empty
  | .map (.cons key child .nil) => .single key child.optimize
  | .map (.cons key child (.cons key' child' rest)) => .map (.cons key child.optimize (.cons key' child'.optimize rest.optimize))

def Entries.optimize : Entries T → Entries T
  | .nil => .nil
  | .cons key child rest => .cons key child.optimize rest.optimize

end

mutual

/-- `recursion`: the labels and the data of the nodes below one, in an order the source leaves open. -/
def Node.recursion (items : List Label) : Node T → List (List Label × T)
  | .mk _ children => children.recursion items

def Children.recursion (items : List Label) : Children T → List (List Label × T)
  | .empty => []
  | .single childStr childNode =>
    (childNode.data.map fun d => (childStr :: items, d)).toList ++ childNode.recursion (childStr :: items)
  | .map childMap => childMap.recursion items

def Entries.recursion (items : List Label) : Entries T → List (List Label × T)
  | .nil => []
  | .cons key child rest =>
    (child.data.map fun d => (key :: items, d)).toList ++ child.recursion (key :: items) ++ rest.recursion items

end

def joinDomain (items : List Label) : List UInt8 := [domainStep].intercalate items

structure DomainTrie (T : Type) where
  root : Node T := newNode

namespace DomainTrie

def insertParts (t : DomainTrie T) (parts : List Label) (data : T) : DomainTrie T := ⟨t.root.insert parts.reverse data⟩

/-- `Insert`; nothing stands for `ErrInvalidDomain`. -/
def insert (u : Unicode) (t : DomainTrie T) (domain : List UInt8) (data : T) : Option (DomainTrie T) :=
  match validAndSplitDomain u domain with
  | none => none
  | some parts =>
    if parts.head? = some complexWildcard then
      some ((t.insertParts parts.tail data).insertParts (dotWildcard :: parts.tail) data)
    else some (t.insertParts parts data)

def search (u : Unicode) (t : DomainTrie T) (domain : List UInt8) : Option (Node T) :=
  match validAndSplitDomain u domain with
  | none => none
  | some parts => if parts.head? = some [] then none else (t.root.search parts.reverse).filter Node.inited

def optimize (t : DomainTrie T) : DomainTrie T := ⟨t.root.optimize⟩

/-- `Foreach` of a callback that goes on: the domains and the values it is called with. -/
def foreach (t : DomainTrie T) : List (List UInt8 × T) := (t.root.recursion []).map fun (items, d) => (joinDomain items, d)

end DomainTrie

def Node.at (n : Node T) : List Label → Option T
  | [] => n.data
  | s :: path => (n.getChild s).bind fun c => c.at path

@[simp] theorem Node.at_nil (n : Node T) : n.at [] = n.data := rfl

theorem Node.at_cons (n : Node T) (s : Label) (path : List Label) :
    n.at (s :: path) = (n.getChild s).bind fun c => c.at path := rfl

theorem Entries.get_put (entries : Entries T) (s r : Label) (node : Node T) :
    (entries.put s node).get r = if s = r then some node else entries.get r :=
  match entries with
  | .nil => rfl
  | .cons key child rest => by
    simp only [Entries.put]
    split
    next hs =>
      subst hs
      simp only [Entries.get]
      split <;> rfl
    next ho =>
      simp only [Entries.get, rest.get_put s r node]
      split
      next hs => rw [if_neg (fun eq => ho (hs.trans eq.symm))]
      · rfl

theorem Children.getChild_addChild (children : Children T) (s r : Label) (child : Node T) :
    (children.addChild s child).getChild r = if s = r then some child else children.getChild r := by
  cases children with
  | empty => rfl
  | single =>
    simp only [Children.addChild, Children.getChild, Entries.get_put]
    rfl
  | map childMap => exact childMap.get_put s r child

theorem Children.getChild_setChild {children : Children T} {s : Label} {old : Node T} (hp : children.getChild s = some old)
    (r : Label) (child : Node T) :
    (children.setChild s child).getChild r = if s = r then some child else children.getChild r := by
  cases children with
  | empty => cases hp
  | single =>
    simp only [Children.getChild] at hp
    split at hp
    next hs =>
      subst hs
      simp only [Children.setChild, Children.getChild, ↓reduceIte]
      split <;> rfl
    · cases hp
  | map childMap => exact childMap.get_put s r child

theorem Node.at_insert (n : Node T) (parts path : List Label) (data : T) :
    (n.insert parts data).at path = if path = parts then some data else n.at path := by
  induction parts generalizing n path with
  | nil =>
    obtain ⟨_, _⟩ := n
    cases path with
    | nil | cons s path => rfl
  | cons part parts ih =>
    have hf : ∀ (children : Children T) (m : Node T),
        (∀ r, children.getChild r = if part = r then some (m.insert parts data) else n.getChild r) →
        (∀ rest, m.at rest = n.at (part :: rest)) →
        (Node.mk n.data children).at path = if path = part :: parts then some data else n.at path := by
      intro children m get hb
      cases path with
      | nil => rfl
      | cons s path =>
        show (children.getChild s).bind _ = _
        rw [get s]
        by_cases hs : part = s
        · subst hs
          rw [if_pos rfl, Option.bind_some, ih m path, hb path]
          simp
        · rw [if_neg hs, if_neg (fun eq => hs (List.cons.inj eq).1.symm)]
          rfl
    simp only [Node.insert]
    split
    next child hp =>
      refine hf _ child (fun r => Children.getChild_setChild hp r _) (fun rest => ?_)
      rw [Node.at_cons, hp]
      rfl
    next ha =>
      refine hf _ newNode (fun r => Children.getChild_addChild _ part r _) (fun rest => ?_)
      rw [Node.at_cons, ha]
      cases rest <;> rfl

theorem Entries.get_optimize (entries : Entries T) (s : Label) : entries.optimize.get s = (entries.get s).map Node.optimize :=
  match entries with
  | .nil => rfl
  | .cons key child rest => by
    simp only [Entries.optimize, Entries.get, rest.get_optimize s]
    split <;> rfl

theorem Children.getChild_optimize (children : Children T) (s : Label) :
    children.optimize.getChild s = (children.getChild s).map Node.optimize := by
  match children with
  | .empty => rfl
  | .single childStr childNode =>
    simp only [Children.optimize, Children.getChild]
    split <;> rfl
  | .map .nil => rfl
  | .map (.cons key child .nil) =>
    simp only [Children.optimize, Children.getChild, Entries.get]
    split <;> rfl
  | .map (.cons key child (.cons key' child' rest)) =>
    exact (Entries.cons key child (.cons key' child' rest)).get_optimize s

theorem Node.at_optimize (n : Node T) (path : List Label) : n.optimize.at path = n.at path := by
  induction path generalizing n with
  | nil =>
    obtain ⟨_, _⟩ := n
    rfl
  | cons s _ ih =>
    obtain ⟨_, children⟩ := n
    show (children.optimize.getChild s).bind _ = (children.getChild s).bind _
    rw [Children.getChild_optimize]
    cases children.getChild s with
    | none => rfl
    | some child => exact ih child

end AsterCore.Trie
