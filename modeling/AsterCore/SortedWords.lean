import Mathlib.Algebra.Ring.Nat
import Mathlib.Algebra.BigOperators.Group.List.Basic
import Mathlib.Data.List.Sort

namespace AsterCore.SortedWords

open List

/-- The words by their first letter, in the order of the list, without that letter; an empty word is in
no group. -/
def groups : List (List UInt8) → List (UInt8 × List (List UInt8))
  | [] => []
  | [] :: words => groups words
  | (c :: w) :: words =>
    match groups words with
    | [] => [(c, [w])]
    | (d, ws) :: gs => if c = d then (c, w :: ws) :: gs else (c, [w]) :: (d, ws) :: gs

def Sorted (words : List (List UInt8)) : Prop := words.Pairwise (· < ·)

def weight (words : List (List UInt8)) : Nat := (words.map List.length).sum + 1

theorem sum_weight_groups (words : List (List UInt8)) :
    ((groups words).map fun g => weight g.2).sum ≤ (words.map List.length).sum := by
  induction words with
  | nil => simp [groups]
  | cons word _ ih =>
    cases word with
    | nil => simpa [groups] using ih
    | cons =>
      simp only [groups]
      split
      next none =>
        simp [weight]
      next hs =>
        rw [hs, map_cons] at ih
        split
        next same =>
          simp only [weight, map_cons, sum_cons, length_cons] at ih ⊢
          omega
        · simp only [weight, map_cons, sum_cons, length_cons, map_nil, sum_nil] at ih ⊢
          omega

theorem weight_groups (words : List (List UInt8)) : ((groups words).map fun g => weight g.2).sum < weight words :=
  Nat.lt_succ_of_le (sum_weight_groups words)

theorem mem_firsts (words : List (List UInt8)) (c : UInt8) : c ∈ (groups words).map Prod.fst ↔ ∃ w, c :: w ∈ words := by
  induction words with
  | nil => simp [groups]
  | cons word words ih =>
    cases word with
    | nil => simpa [groups] using ih
    | cons d w =>
      have step : c ∈ (groups ((d :: w) :: words)).map Prod.fst ↔ c = d ∨ c ∈ (groups words).map Prod.fst := by
        simp only [groups]
        split
        next hn => simp [hn]
        next some =>
          rw [some]
          split
          next hs => simp [hs]
          · simp
      rw [step, ih]
      constructor
      · rintro (rfl | ⟨v, mem⟩)
        · exact ⟨w, by simp⟩
        · exact ⟨v, by simp [mem]⟩
      · rintro ⟨v, mem⟩
        rcases mem_cons.mp mem with hs | mem
        · exact .inl (cons.inj hs).1
        · exact .inr ⟨v, mem⟩

variable {words : List (List UInt8)}

theorem Sorted.tail {word : List UInt8} (hs : Sorted (word :: words)) : Sorted words :=
  (pairwise_cons.mp hs).2

theorem Sorted.le_first {c d : UInt8} {w : List UInt8} (hs : Sorted ((c :: w) :: words))
    (hf : d ∈ (groups words).map Prod.fst) : c ≤ d := by
  obtain ⟨v, mem⟩ := (mem_firsts words d).mp hf
  rcases cons_lt_cons_iff.mp ((pairwise_cons.mp hs).1 _ mem) with hl | ⟨same, _⟩
  · exact UInt8.le_of_lt hl
  · rw [same]
    exact UInt8.le_refl d

theorem firsts_increasing (hs : Sorted words) : ((groups words).map Prod.fst).Pairwise (· < ·) := by
  induction words with
  | nil => simp [groups]
  | cons word _ ih =>
    have hr := ih hs.tail
    cases word with
    | nil => simpa [groups] using hr
    | cons c =>
      have hl := fun d => hs.le_first (d := d)
      simp only [groups]
      split
      · simp
      next d _ _ some =>
        rw [some] at hr hl
        split
        next same =>
          subst same
          exact hr
        next ho =>
          refine pairwise_cons.mpr ⟨fun e mem => ?_, hr⟩
          have hh := UInt8.lt_of_le_of_ne (hl d (by simp)) ho
          rcases mem_cons.mp mem with rfl | hla
          · exact hh
          · exact UInt8.lt_trans hh ((pairwise_cons.mp hr).1 e hla)

theorem mem_group (hs : Sorted words) {c : UInt8} {ws : List (List UInt8)}
    (hg : (c, ws) ∈ groups words) (w : List UInt8) : w ∈ ws ↔ c :: w ∈ words := by
  induction words generalizing c ws with
  | nil => cases hg
  | cons word words ih =>
    have hr := @ih hs.tail
    cases word with
    | nil =>
      rw [hr hg]
      simp
    | cons d =>
      have hi := firsts_increasing hs.tail
      have hl := fun e => hs.le_first (d := e)
      simp only [groups] at hg
      split at hg
      next hn =>
        rcases mem_singleton.mp hg with ⟨rfl, rfl⟩
        have ha : c :: w ∉ words := by
          intro mem
          have := (mem_firsts words c).mpr ⟨w, mem⟩
          rw [hn] at this
          cases this
        simp [ha]
      next e _ gs some =>
        rw [some] at hr hi hl
        have hla : ∀ {b us}, (b, us) ∈ gs → e < b :=
          fun mem => (pairwise_cons.mp hi).1 _ (mem_map_of_mem mem)
        split at hg
        next same =>
          subst same
          rcases mem_cons.mp hg with hh | mem
          · cases hh
            simp [hr mem_cons_self]
          · have hap : c ≠ d := fun eq => UInt8.lt_irrefl d (eq ▸ hla mem)
            rw [hr (mem_cons_of_mem _ mem)]
            simp [hap]
        next ho =>
          have head := UInt8.lt_of_le_of_ne (hl e (by simp)) ho
          rcases mem_cons.mp hg with hh | mem
          · cases hh
            have ha : c :: w ∉ words := by
              intro mem
              have hf := (mem_firsts words c).mpr ⟨w, mem⟩
              rw [some] at hf
              rcases mem_cons.mp hf with same | hin
              · exact ho same
              · exact UInt8.lt_irrefl c (UInt8.lt_trans head ((pairwise_cons.mp hi).1 c hin))
            simp [ha]
          · have hap : c ≠ d := by
              rintro rfl
              rcases mem_cons.mp mem with same | hin
              · cases same
                exact ho rfl
              · exact UInt8.lt_irrefl c (UInt8.lt_trans head (hla hin))
            rw [hr mem]
            simp [hap]

theorem group_nonempty {c : UInt8} {ws : List (List UInt8)} (hg : (c, ws) ∈ groups words) : ws ≠ [] := by
  induction words generalizing c ws with
  | nil => cases hg
  | cons word _ ih =>
    cases word with
    | nil => exact ih hg
    | cons =>
      simp only [groups] at hg
      split at hg
      · rcases mem_singleton.mp hg with ⟨rfl, rfl⟩
        simp
      next hs =>
        split at hg
        · rcases mem_cons.mp hg with hh | mem
          · cases hh
            simp
          · exact ih (hs ▸ mem_cons_of_mem _ mem)
        · rcases mem_cons.mp hg with hh | mem
          · cases hh
            simp
          · exact ih (hs ▸ mem)

theorem group_sorted (hs : Sorted words) {c : UInt8} {ws : List (List UInt8)} (hg : (c, ws) ∈ groups words) : Sorted ws := by
  induction words generalizing c ws with
  | nil => cases hg
  | cons word _ ih =>
    have hr := @ih hs.tail
    cases word with
    | nil => exact hr hg
    | cons =>
      simp only [groups] at hg
      split at hg
      · rcases mem_singleton.mp hg with ⟨rfl, rfl⟩
        exact pairwise_singleton _ _
      next some =>
        rw [some] at hr
        split at hg
        next same =>
          subst same
          rcases mem_cons.mp hg with hh | mem
          · cases hh
            refine pairwise_cons.mpr ⟨fun w mem => ?_, hr mem_cons_self⟩
            have ha := (mem_group hs.tail (some ▸ mem_cons_self) w).mp mem
            rcases cons_lt_cons_iff.mp ((pairwise_cons.mp hs).1 _ ha) with hl | ⟨_, hl⟩
            · exact absurd hl (UInt8.lt_irrefl c)
            · exact hl
          · exact hr (mem_cons_of_mem _ mem)
        · rcases mem_cons.mp hg with hh | mem
          · cases hh
            exact pairwise_singleton _ _
          · exact hr mem

theorem nil_mem_iff (hs : Sorted words) : [] ∈ words ↔ words.head? = some [] := by
  cases words with
  | nil => simp
  | cons word =>
    refine ⟨fun mem => ?_, fun hf => by simp [Option.some.inj hf]⟩
    rcases mem_cons.mp mem with same | hl
    · simp [← same]
    · exact absurd ((pairwise_cons.mp hs).1 [] hl) (not_lt_nil word)

theorem flatMap_groups (hf : ∀ w ∈ words, w ≠ []) : (groups words).flatMap (fun g => g.2.map (g.1 :: ·)) = words := by
  induction words with
  | nil => rfl
  | cons word words ih =>
    have hr := ih fun w mem => hf w (by simp [mem])
    obtain ⟨c, w, rfl⟩ := exists_cons_of_ne_nil (hf word (by simp))
    rw [groups]
    cases split : groups words with
    | nil =>
      rw [split] at hr
      simp [← hr]
    | cons =>
      rw [split] at hr
      simp only
      split
      next hs =>
        subst hs
        simp [← hr]
      · simp [← hr]

theorem words_eq (hs : Sorted words) :
    words = (if words.head? = some [] then [[]] else []) ++ (groups words).flatMap (fun g => g.2.map (g.1 :: ·)) := by
  cases words with
  | nil => rfl
  | cons word words =>
    have hl : ∀ w ∈ words, w ≠ [] := by
      rintro w mem rfl
      exact not_lt_nil _ ((pairwise_cons.mp hs).1 [] mem)
    cases word with
    | nil =>
      rw [groups, flatMap_groups hl]
      rfl
    | cons =>
      refine (flatMap_groups fun v mem => ?_).symm.trans (by simp)
      rcases mem_cons.mp mem with rfl | ht
      · simp
      · exact hl v ht

theorem sorted_insertionSort (hd : words.Nodup) : Sorted (words.insertionSort (· ≤ ·)) := by
  have ho := pairwise_insertionSort (· ≤ ·) words
  have hn := (perm_insertionSort (· ≤ ·) words).nodup_iff.mpr hd
  refine (ho.and hn).imp fun {a b} hb => ?_
  exact (List.le_iff_lt_or_eq.mp hb.1).resolve_right hb.2

end AsterCore.SortedWords
