import AsterCore.BitWords
import AsterCore.LevelOrder
import AsterCore.SortedWords
import AsterCore.DomainTrie

namespace AsterCore.Trie

open BitWords SortedWords LevelOrder

structure DomainSet where
  leaves : List (BitVec 64)
  labelBitmap : List (BitVec 64)
  labels : List UInt8
  childStart : List Nat

/-- The internal key of a pattern: a suffix pattern gets its `+`, and the runes are reversed. -/
def domainKey (domain : List UInt8) : List UInt8 :=
  reverseRunes (if domain.head? = some domainStep then complexWildcard ++ domain else domain)

def sortedKeys {T : Type} (t : DomainTrie T) : List (List UInt8) :=
  (t.foreach.map fun e => domainKey e.1).insertionSort (· ≤ ·)

structure Builder where
  leaves : List (BitVec 64) := []
  labelBitmap : List (BitVec 64) := []
  labels : List UInt8 := []
  lIdx : Nat := 0

namespace Builder

def edge (b : Builder) (label : UInt8) : Builder :=
  { b with labels := b.labels ++ [label], labelBitmap := setBit b.labelBitmap b.lIdx false, lIdx := b.lIdx + 1 }

/-- The `i`-th turn of the loop. An element of the queue is the list of the keys `keys[s:e]` without
their first `col` bytes; the first of them may end here. -/
def node (b : Builder) (i : Nat) (words : List (List UInt8)) : Builder :=
  let b := if words.head? = some [] then { b with leaves := setBit b.leaves i true } else b
  let b := (groups words).foldl (fun b g => b.edge g.1) b
  { b with labelBitmap := setBit b.labelBitmap b.lIdx true, lIdx := b.lIdx + 1 }

def loop : Nat → Nat → List (List (List UInt8)) → Builder → Builder
  | 0, _, _, b => b
  | _ + 1, _, [], b => b
  | n + 1, i, words :: queue, b => loop n (i + 1) (queue ++ (groups words).map Prod.snd) (b.node i words)

end Builder

/-- The edges before each node end: the entries of `childStart` after the first. -/
def childIndex : List Bool → Nat → List Nat
  | [], _ => []
  | false :: bits, edge => childIndex bits (edge + 1)
  | true :: bits, edge => edge :: childIndex bits edge

def buildChildIndex (labelBitmap : List (BitVec 64)) : List Nat :=
  if (labelBitmap.map onesCount).sum = 0 then [0, 0] else 0 :: childIndex (labelBitmap.flatMap wordBits) 0

/-- `NewDomainSet`; nothing stands for the nil set of an empty trie. The loop ends before its fuel does. -/
def newDomainSet {T : Type} (t : DomainTrie T) : Option DomainSet :=
  match sortedKeys t with
  | [] => none
  | key :: keys =>
    let b := Builder.loop (weight (key :: keys)) 0 [key :: keys] {}
    some ⟨b.leaves, b.labelBitmap, b.labels, buildChildIndex b.labelBitmap⟩

/-- A place to go back to: the node of a `*`, and where in the key its label starts. -/
structure WildcardCursor where
  nodeId : Nat
  index : Nat

def revLower (u : Unicode) (key : List UInt8) : List UInt8 :=
  if key.any (128 ≤ ·) then ((u.lower (reverseRunes key)).reverse.reverse).map asciiLower
  else key.reverse.map asciiLower

inductive Scan
  | accept
  | found (e : Nat) (stack : List WildcardCursor)
  | missing (stack : List WildcardCursor)

/-- Where `Has` stands: at the walk along the key, at the label `backtrack`, or done. -/
inductive HasState
  | walk (nodeId e i : Nat) (stack : List WildcardCursor)
  | backtrack (stack : List WildcardCursor)
  | done (result : Bool)

namespace DomainSet

/-- The labels from `e` on, as many as given. Nothing stands for an index out of range, here and below. -/
def scan (ss : DomainSet) (c : UInt8) (i : Nat) : Nat → Nat → List WildcardCursor → Option Scan
  | 0, _, stack => some (.missing stack)
  | n + 1, e, stack =>
    match ss.labels[e]? with
    | none => none
    | some label =>
      if label = 43 then some .accept
      else if label = 42 then ss.scan c i n (e + 1) (⟨e + 1, i⟩ :: stack)
      else if label = c then some (.found e stack)
      else ss.scan c i n (e + 1) stack

def findStep (ss : DomainSet) : Nat → Nat → Option (Option Nat)
  | 0, _ => some none
  | n + 1, e =>
    match ss.labels[e]? with
    | none => none
    | some label => if label = domainStep then some (some e) else ss.findStep n (e + 1)

def step (ss : DomainSet) (key : List UInt8) : HasState → Option HasState
  | .done result => some (.done result)
  | .walk nodeId e i stack =>
    match key[i]? with
    | none => (getBit ss.leaves nodeId).map fun leaf => if leaf then .done true else .backtrack stack
    | some c =>
      match ss.childStart[nodeId + 1]? with
      | none => none
      | some fin =>
        match ss.scan c i (fin - e) e stack with
        | none => none
        | some .accept => some (.done true)
        | some (.missing stack) => some (.backtrack stack)
        | some (.found e stack) => (ss.childStart[e + 1]?).map fun start => .walk (e + 1) start (i + 1) stack
  | .backtrack [] => some (.done false)
  | .backtrack (cursor :: stack) =>
    let i := cursor.index + ((key.drop cursor.index).takeWhile (· ≠ domainStep)).length
    if i = key.length then
      (getBit ss.leaves cursor.nodeId).map fun leaf => if leaf then .done true else .backtrack stack
    else
      match ss.childStart[cursor.nodeId]?, ss.childStart[cursor.nodeId + 1]? with
      | some start, some fin =>
        (ss.findStep (fin - start) start).map fun
          | some e => .walk cursor.nodeId e i stack
          | none => .backtrack stack
      | _, _ => none

def run (ss : DomainSet) (key : List UInt8) : Nat → HasState → Option Bool
  | 0, _ => none
  | _ + 1, .done result => some result
  | n + 1, s => (ss.step key s).bind fun s' => ss.run key n s'

end DomainSet

/-- `Has`, in at most the given number of turns. -/
def has (u : Unicode) (fuel : Nat) (ss : Option DomainSet) (key : List UInt8) : Option Bool :=
  match ss with
  | none => some false
  | some ss =>
    if ss.childStart.length < 2 then some false
    else (ss.childStart[0]?).bind fun e => ss.run (revLower u key) fuel (.walk 0 e 0 [])

end AsterCore.Trie
