import Mathlib.Algebra.Ring.Nat
import Mathlib.Algebra.BigOperators.Group.List.Basic

namespace AsterCore.LevelOrder

open List

variable {α β : Type} (children : α → List (β × α))

/-- The nodes that are reached from a queue, in breadth-first order. -/
def layout : Nat → List α → List α
  | 0, _ => []
  | _ + 1, [] => []
  | n + 1, a :: queue => a :: layout n (queue ++ (children a).map Prod.snd)

def offset (nodes : List α) (i : Nat) : Nat := ((nodes.take i).map fun a => (children a).length).sum

@[simp] theorem offset_zero (nodes : List α) : offset children nodes 0 = 0 := rfl

theorem offset_cons (a : α) (nodes : List α) (i : Nat) :
    offset children (a :: nodes) (i + 1) = (children a).length + offset children nodes i := by
  simp [offset]

variable {i : Nat} {a : α}

variable {nodes : List α}

theorem offset_succ (hh : nodes[i]? = some a) :
    offset children nodes (i + 1) = offset children nodes i + (children a).length := by
  simp [offset, take_add_one, hh]

theorem offset_length (nodes : List α) : offset children nodes nodes.length = (nodes.flatMap children).length := by
  simp [offset]

variable {children}

theorem getElem?_edges (hh : nodes[i]? = some a) {k : Nat} (hb : k < (children a).length) :
    (nodes.flatMap children)[offset children nodes i + k]? = (children a)[k]? := by
  induction nodes generalizing i with
  | nil => cases hh
  | cons b nodes ih =>
    rw [flatMap_cons]
    cases i with
    | zero =>
      cases hh
      rw [offset_zero, Nat.zero_add, getElem?_append_left hb]
    | succ i =>
      rw [offset_cons, getElem?_append_right (by omega)]
      have hs : (children b).length + offset children nodes i + k - (children b).length =
          offset children nodes i + k := by omega
      rw [hs]
      exact ih hh

theorem getElem?_labels {k : Nat} {c : α} {b : β} (hh : nodes[i]? = some a) (he : (children a)[k]? = some (b, c)) :
    ((nodes.flatMap children).map Prod.fst)[offset children nodes i + k]? = some b := by
  have hb := (List.getElem?_eq_some_iff.mp he).1
  rw [getElem?_map, getElem?_edges hh hb, he]
  rfl

section Weight

variable {weight : α → Nat} (lighter : ∀ a, ((children a).map fun c => weight c.2).sum < weight a)
include lighter

theorem layout_eq {n : Nat} {queue : List α} (enough : (queue.map weight).sum ≤ n) :
    layout children n queue = queue ++ ((layout children n queue).flatMap children).map Prod.snd := by
  induction n generalizing queue with
  | zero =>
    cases queue with
    | nil => rfl
    | cons a =>
      have := lighter a
      rw [map_cons, sum_cons] at enough
      omega
  | succ n ih =>
    cases queue with
    | nil => rfl
    | cons a queue =>
      have less := lighter a
      rw [map_cons, sum_cons] at enough
      have rest := @ih (queue ++ (children a).map Prod.snd) (by
        rw [map_append, sum_append, map_map]
        show (queue.map weight).sum + ((children a).map fun c => weight c.2).sum ≤ n
        omega)
      show a :: layout children n (queue ++ (children a).map Prod.snd) = _
      conv_lhs => rw [rest]
      rw [layout, flatMap_cons, map_append, cons_append, append_assoc]

end Weight

variable {n : Nat}

theorem forall_layout {p : α → Prop} (hb : ∀ a, p a → ∀ c ∈ children a, p c.2) {queue : List α}
    (hs : ∀ a ∈ queue, p a) : ∀ a ∈ layout children n queue, p a := by
  induction n generalizing queue with
  | zero =>
    intro a mem
    cases mem
  | succ _ ih =>
    cases queue with
    | nil =>
      intro a mem
      cases mem
    | cons b =>
      intro a mem
      rcases mem_cons.mp mem with rfl | hl
      · exact hs a (by simp)
      · refine ih (fun c ht => ?_) a hl
        rcases mem_append.mp ht with old | new
        · exact hs c (by simp [old])
        · obtain ⟨e, he, rfl⟩ := mem_map.mp new
          exact hb b (hs b (by simp)) e he

theorem lt_offset {queue : List α} {i : Nat} (ht : i < (layout children n queue).length) :
    i < queue.length + offset children (layout children n queue) i := by
  induction n generalizing queue i with
  | zero => cases ht
  | succ n ih =>
    cases queue with
    | nil => cases ht
    | cons a queue =>
      cases i with
      | zero => simp
      | succ i =>
        have hs := @ih (queue ++ (children a).map Prod.snd) i (Nat.lt_of_succ_lt_succ ht)
        rw [length_append, length_map] at hs
        show i + 1 < (a :: queue).length + offset children (a :: layout children n (queue ++ (children a).map Prod.snd)) (i + 1)
        rw [offset_cons, length_cons]
        omega

variable (children) in
structure Laid (root : α) (nodes : List α) : Prop where
  eq : nodes = root :: (nodes.flatMap children).map Prod.snd
  queued : ∀ i, i < nodes.length → i ≤ offset children nodes i

theorem laid_layout {weight : α → Nat} (hl : ∀ a, ((children a).map fun c => weight c.2).sum < weight a)
    {root : α} (he : weight root ≤ n) : Laid children root (layout children n [root]) where
  eq := layout_eq hl (by simpa using he)
  queued := fun i ht => by
    have := lt_offset ht
    simp only [length_singleton] at this
    omega

namespace Laid

variable {root : α} {nodes : List α} (laid : Laid children root nodes)
include laid

theorem root_eq : nodes[0]? = some root := by
  rw [laid.eq]
  rfl

theorem length_eq : nodes.length = (nodes.flatMap children).length + 1 := by
  conv_lhs => rw [laid.eq]
  rw [length_cons, length_map]

theorem child {i k : Nat} {a c : α} {b : β} (hh : nodes[i]? = some a) (he : (children a)[k]? = some (b, c)) :
    nodes[offset children nodes i + k + 1]? = some c := by
  have hb := (List.getElem?_eq_some_iff.mp he).1
  have at_edge := getElem?_edges hh hb
  rw [laid.eq, getElem?_cons_succ, getElem?_map, ← laid.eq, at_edge, he]
  rfl

theorem last_children {a : α} (hl : nodes.getLast? = some a) : children a = [] := by
  rw [getLast?_eq_getElem?] at hl
  have total := offset_length children nodes
  have count := laid.length_eq
  have hf := offset_succ children hl
  have hq := laid.queued (nodes.length - 1) (by omega)
  have hi : nodes.length - 1 + 1 = nodes.length := by omega
  rw [hi] at hf
  exact length_eq_zero_iff.mp (by omega)

end Laid

end AsterCore.LevelOrder
