import AsterCore.RecencyEntries

namespace AsterCore

open RecencyEntries List Option

structure Cell (V : Type) where
  value : V
  expires : Int

/-- The entries that caches refer to; after `CloneTo` two caches refer to the same ones. -/
abbrev Cells (V : Type) := List (Cell V)

def Cells.value {V : Type} (cells : Cells V) (ref : Nat) : Option V := (cells[ref]?).map Cell.value

/-- `LruCache`. The list has the key and the reference of each entry, and the map of the source finds an
entry of the list by its key. -/
structure LruCache (K : Type) where
  maxAge : Int := 0
  maxSize : Int := 0
  updateAgeOnGet : Bool := false
  staleReturn : Bool := false
  lru : List (K × Nat) := []
  distinct : (lru.map Prod.fst).Nodup := by exact List.nodup_nil

namespace LruCache

variable {K V : Type}

def clear (c : LruCache K) : LruCache K := { c with lru := [], distinct := List.nodup_nil }

def cloneTo (c n : LruCache K) : LruCache K := { n with lru := c.lru, distinct := c.distinct }

def dropExpired (cells : Cells V) (now : Int) (lru : List (K × Nat)) : List (K × Nat) :=
  lru.dropWhile fun e => (cells[e.2]?).any fun cell => cell.expires ≤ now

def maybeDeleteOldest (now : Int) (cells : Cells V) (c : LruCache K) : LruCache K :=
  if c.staleReturn = false ∧ 0 < c.maxAge then
    { c with
      lru := dropExpired cells now c.lru
      distinct := c.distinct.sublist (List.Sublist.map _ (List.dropWhile_sublist _)) }
  else c

section

variable [DecidableEq K]

def exist (c : LruCache K) (key : K) : Bool := (find c.lru key).isSome

def moveToBack (c : LruCache K) (key : K) : LruCache K :=
  { c with lru := touch c.lru key, distinct := keys_touch c.distinct key }

def delete (c : LruCache K) (key : K) : LruCache K :=
  { c with lru := without c.lru key, distinct := (keys_without c.distinct key).1 }

def get (now : Int) (cells : Cells V) (c : LruCache K) (key : K) : Cells V × LruCache K × Option V :=
  match (find c.lru key).bind fun ref => (cells[ref]?).map fun cell => (ref, cell) with
  | none => (cells, c, none)
  | some (ref, cell) =>
    if c.staleReturn = false ∧ 0 < c.maxAge ∧ cell.expires ≤ now then
      (cells, (c.delete key).maybeDeleteOldest now cells, none)
    else if 0 < c.maxAge ∧ c.updateAgeOnGet then
      (cells.set ref { cell with expires := now + c.maxAge }, c.moveToBack key, some cell.value)
    else (cells, c.moveToBack key, some cell.value)

def setWithExpire (now : Int) (cells : Cells V) (c : LruCache K) (key : K) (value : V) (expires : Int) : Cells V × LruCache K :=
  match present : find c.lru key with
  | some ref =>
    let cells := cells.set ref ⟨value, expires⟩
    (cells, (c.moveToBack key).maybeDeleteOldest now cells)
  | none =>
    let c : LruCache K :=
      { c with lru := push c.maxSize c.lru (key, cells.length), distinct := keys_push c.distinct present c.maxSize }
    let cells := cells ++ [⟨value, expires⟩]
    (cells, c.maybeDeleteOldest now cells)

def set (now : Int) (cells : Cells V) (c : LruCache K) (key : K) (value : V) : Cells V × LruCache K :=
  c.setWithExpire now cells key value (if 0 < c.maxAge then now + c.maxAge else 0)

end

structure Keeps (cells : Cells V) (c : LruCache K) (size : Int) (l : List (K × V)) : Prop where
  holds : c.lru.map (Prod.map id cells.value) = l.map (Prod.map id some)
  noAge : c.maxAge = 0
  sized : c.maxSize = size

namespace Keeps

variable {cells : Cells V} {c : LruCache K} {size : Int} {l : List (K × V)}

section

variable (h : Keeps cells c size l)

include h

theorem value_some {e : K × Nat} (mem : e ∈ c.lru) : ∃ v, cells.value e.2 = some v := by
  have ht := h.holds ▸ mem_map_of_mem mem
  obtain ⟨x, _, eq⟩ := mem_map.mp ht
  exact ⟨x.2, (congrArg Prod.snd eq).symm⟩

theorem append (more : Cells V) : Keeps (cells ++ more) c size l := by
  refine ⟨?_, h.noAge, h.sized⟩
  rw [← h.holds]
  refine map_congr_left fun e mem => ?_
  obtain ⟨v, hf⟩ := h.value_some mem
  have hi : e.2 < cells.length := by
    by_contra ho
    rw [Cells.value, getElem?_eq_none (by omega)] at hf
    cases hf
  simp only [Prod.map, Cells.value, getElem?_append_left hi]

theorem clear : Keeps cells c.clear size [] := ⟨rfl, h.noAge, h.sized⟩

theorem cloneTo {n : LruCache K} {size' : Int} {l' : List (K × V)} (ht : Keeps cells n size' l') :
    Keeps cells (c.cloneTo n) size' l := ⟨h.holds, ht.noAge, ht.sized⟩

end

variable [DecidableEq K]

section

variable (h : Keeps cells c size l)

include h

theorem find_ref (key : K) : (find c.lru key).bind cells.value = find l key := by
  have hs := congrArg (find · key) h.holds
  simp only [find_map] at hs
  cases hh : find c.lru key with
  | none =>
    rw [hh] at hs
    cases ht : find l key with
    | none => rfl
    | some =>
      rw [ht] at hs
      cases hs
  | some =>
    rw [hh] at hs
    cases ht : find l key with
    | none =>
      rw [ht] at hs
      cases hs
    | some =>
      rw [ht] at hs
      exact some.inj hs

theorem find_none {key : K} (ha : find l key = none) : find c.lru key = none := by
  have hs := congrArg (find · key) h.holds
  simp only [find_map, ha] at hs
  simpa using hs

theorem touched (key : K) : Keeps cells (c.moveToBack key) size (touch l key) := by
  refine ⟨?_, h.noAge, h.sized⟩
  show (touch c.lru key).map _ = _
  rw [← touch_map, h.holds, touch_map]

theorem deleted (key : K) : Keeps cells (c.delete key) size (without l key) := by
  refine ⟨?_, h.noAge, h.sized⟩
  show (without c.lru key).map _ = _
  rw [← without_map, h.holds, without_map]

theorem exist_eq (key : K) : c.exist key = (find l key).isSome := by
  have hs := congrArg (fun l => (find l key).isSome) h.holds
  simp only [find_map, isSome_map] at hs
  exact hs

theorem get (now : Int) (key : K) :
    ∃ c', c.get now cells key = (cells, c', find l key) ∧ Keeps cells c' size (touch l key) := by
  have hs := h.find_ref key
  unfold LruCache.get
  cases hh : find c.lru key with
  | none =>
    rw [hh] at hs
    refine ⟨c, by rw [← hs]; rfl, ?_⟩
    rw [touch, ← hs]
    exact h
  | some =>
    obtain ⟨v, hv⟩ := h.value_some (mem_of_find hh)
    obtain ⟨_, at_ref, rfl⟩ := map_eq_some_iff.mp hv
    rw [hh, bind_some, hv] at hs
    refine ⟨c.moveToBack key, ?_, h.touched key⟩
    simp only [bind_some, at_ref, map_some]
    rw [if_neg (by rw [h.noAge]; simp), if_neg (by rw [h.noAge]; simp), hs]

theorem set (now : Int) {key : K} (value : V) (hf : find l key = none) :
    ∃ cell c', c.set now cells key value = (cells ++ [cell], c') ∧ Keeps (cells ++ [cell]) c' size
    (push size l (key, value)) := by
  have ha := h.find_none hf
  refine ⟨⟨value, 0⟩, { c with lru := push c.maxSize c.lru (key, cells.length), distinct := keys_push c.distinct ha c.maxSize }, ?_, ?_⟩
  · unfold LruCache.set LruCache.setWithExpire
    split
    next hp =>
      rw [ha] at hp
      cases hp
    · have hag : ¬ 0 < c.maxAge := by rw [h.noAge]; exact Int.lt_irrefl 0
      simp only [maybeDeleteOldest, hag, and_false, if_false]
  · refine ⟨?_, h.noAge, h.sized⟩
    have old := (h.append [⟨value, 0⟩]).holds
    have new : Prod.map id (Cells.value (cells ++ [⟨value, 0⟩])) (key, cells.length) = Prod.map id some (key, value) := by
      simp [Cells.value]
    rw [← push_map, ← push_map, old, new, h.sized]

end

end Keeps

end LruCache

end AsterCore
