import Mathlib.Data.List.Basic
import Mathlib.Data.List.Nodup

/-!
# Stable sorting inside blocks

A list is cut into consecutive blocks and each block is sorted by itself. The
result is a permutation in which no element leaves its block, so no element moves
by a whole block length.
-/

namespace BlockSort

open List

variable {α β : Type} (le : α → α → Bool) (size : Nat)

/-- Sort the blocks of a list, one block for each unit of fuel. -/
def sortWithin : Nat → List α → List α
  | 0, l => l
  | fuel + 1, l => (l.take size).mergeSort le ++ sortWithin fuel (l.drop size)

/-- Sort consecutive blocks of `size` elements. -/
def sortBlocks (l : List α) : List α := sortWithin le size l.length l

theorem sortWithin_perm (fuel : Nat) (l : List α) : (sortWithin le size fuel l).Perm l := by
  induction fuel generalizing l with
  | zero => exact .refl l
  | succ fuel ih =>
    have blocks := (mergeSort_perm (l.take size) le).append (ih (l.drop size))
    rwa [take_append_drop] at blocks

theorem sortBlocks_perm (l : List α) : (sortBlocks le size l).Perm l :=
  sortWithin_perm le size l.length l

theorem sortBlocks_of_pairwise {l : List α} (ordered : l.Pairwise fun a b => le a b = true) :
    sortBlocks le size l = l := by
  rw [sortBlocks]
  generalize l.length = fuel
  induction fuel generalizing l with
  | zero => rfl
  | succ fuel ih =>
    rw [sortWithin, mergeSort_of_pairwise (ordered.sublist (take_sublist size l)),
      ih (ordered.sublist (drop_sublist size l)), take_append_drop]

section

variable (trans : ∀ a b c, le a b = true → le b c = true → le a c = true)
  (total : ∀ a b, (le a b || le b a) = true) {p : α → Bool}
  (level : ∀ a b, p a = true → p b = true → le a b = true) (l : List α)

include trans total level l

/-- Elements that count as equal keep their order. -/
theorem mergeSort_filter : (l.mergeSort le).filter p = l.filter p := by
  have inside : (l.filter p).Sublist (l.mergeSort le) := by
    refine sublist_mergeSort trans total ?_ filter_sublist
    refine pairwise_of_forall_mem_list fun a left b right => ?_
    exact level a b (mem_filter.mp left).2 (mem_filter.mp right).2
  have again := inside.filter p
  simp only [filter_filter, Bool.and_self] at again
  exact (again.eq_of_length ((mergeSort_perm l le).filter p).length_eq.symm).symm

theorem sortBlocks_filter : (sortBlocks le size l).filter p = l.filter p := by
  rw [sortBlocks]
  generalize l.length = fuel
  induction fuel generalizing l with
  | zero => rfl
  | succ fuel ih =>
    rw [sortWithin, filter_append, mergeSort_filter le trans total level, ih,
      ← filter_append, take_append_drop]

end

/-- No element of a list without repetitions moves by a whole block. -/
theorem sortWithin_displacement {f : α → β} (positive : 0 < size) {b : β} {fuel i j : Nat}
    {l : List α} (enough : l.length ≤ fuel) (distinct : (l.map f).Nodup)
    (delivered : ((sortWithin le size fuel l).map f)[i]? = some b)
    (strict : (l.map f)[j]? = some b) : i < j + size ∧ j < i + size := by
  induction fuel generalizing l i j with
  | zero =>
    have empty : l = [] := by simpa using enough
    simp [empty] at strict
  | succ fuel ih =>
    have whole : (l.take size).map f ++ (l.drop size).map f = l.map f := by
      rw [← map_append, take_append_drop]
    rw [← whole] at distinct strict
    have apart := disjoint_of_nodup_append distinct
    have sorted := (mergeSort_perm (l.take size) le).map f
    have later := (sortWithin_perm le size fuel (l.drop size)).map f
    have width : ((l.take size).map f).length ≤ size := by
      rw [length_map, length_take]
      exact Nat.min_le_left ..
    rw [sortWithin, map_append, getElem?_append, sorted.length_eq] at delivered
    rw [getElem?_append] at strict
    -- An element of the first block is in it before and after; the rest is the tail's business.
    split at delivered
    · have first := sorted.mem_iff.mp (mem_of_getElem? delivered)
      split at strict
      · omega
      · exact (apart first (mem_of_getElem? strict)).elim
    · have rest := later.mem_iff.mp (mem_of_getElem? delivered)
      split at strict
      · exact (apart (mem_of_getElem? strict) rest).elim
      · have shorter : (l.drop size).length ≤ fuel := by
          rw [length_drop]
          omega
        have bounds := ih shorter (nodup_append.mp distinct).2.1 delivered strict
        omega

theorem sortBlocks_displacement {f : α → β} {l : List α} (positive : 0 < size)
    (distinct : (l.map f).Nodup) {b : β} {i j : Nat}
    (delivered : ((sortBlocks le size l).map f)[i]? = some b)
    (strict : (l.map f)[j]? = some b) : i < j + size ∧ j < i + size :=
  sortWithin_displacement le size positive (Nat.le_refl _) distinct delivered strict

end BlockSort
