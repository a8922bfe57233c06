import Mathlib.Data.List.Basic
import Mathlib.Data.List.Induction
import Mathlib.Data.List.Nodup

/-!
# Grouping a list by keys

The elements of a list that have a key are collected under it, one element after
the other. The groups stand in the order in which their keys first appear, and each
holds its elements in the order of the list.
-/

namespace Grouping

open List

variable {α κ : Type} [DecidableEq κ]

/-- Add an element to the group of its key, or open a group at the end. -/
def pushGroup : List (κ × List α) → κ → α → List (κ × List α)
  | [], key, a => [(key, [a])]
  | (other, members) :: rest, key, a =>
    if other = key then (other, members ++ [a]) :: rest
    else (other, members) :: pushGroup rest key a

/-- The groups of a list: its keys by first appearance, each with its elements. -/
def grouped (key : α → Option κ) (l : List α) : List (κ × List α) :=
  (l.filterMap key).eraseDups.map fun k => (k, l.filter fun a => decide (key a = some k))

theorem pushGroup_map (f : κ → List α) {keys : List κ} (distinct : keys.Nodup) (k : κ) (a : α) :
    pushGroup (keys.map fun key => (key, f key)) k a =
      if k ∈ keys then keys.map fun key => (key, if key = k then f key ++ [a] else f key)
      else keys.map (fun key => (key, f key)) ++ [(k, [a])] := by
  induction keys with
  | nil => rfl
  | cons key keys ih =>
    obtain ⟨absent, distinct⟩ := nodup_cons.mp distinct
    rw [map_cons, pushGroup]
    by_cases same : key = k
    · subst same
      have others :
          keys.map (fun other => (other, if other = key then f other ++ [a] else f other)) =
            keys.map fun other => (other, f other) := by
        refine map_congr_left fun other member => ?_
        have different : other ≠ key := fun equal => absent (equal ▸ member)
        rw [if_neg different]
      rw [if_pos rfl, if_pos mem_cons_self, map_cons, if_pos rfl, others]
    · rw [if_neg same, ih distinct]
      by_cases member : k ∈ keys
      · rw [if_pos member, if_pos (mem_cons_of_mem _ member), map_cons, if_neg same]
      · have outside : k ∉ key :: keys := by
          rw [mem_cons]
          rintro (equal | here)
          · exact same equal.symm
          · exact member here
        rw [if_neg member, if_neg outside, cons_append]

theorem eraseDups_concat (l : List κ) (k : κ) :
    (l ++ [k]).eraseDups = if k ∈ l then l.eraseDups else l.eraseDups ++ [k] := by
  rw [eraseDups_append]
  by_cases member : k ∈ l
  · rw [if_pos member]
    simp [removeAll, member]
  · rw [if_neg member]
    simp [removeAll, member, eraseDups_cons]

theorem nodup_eraseDups (l : List κ) : l.eraseDups.Nodup := by
  induction l using reverseRecOn with
  | nil => exact nodup_nil
  | append_singleton l k ih =>
    rw [eraseDups_concat]
    split
    · exact ih
    · next absent =>
      refine nodup_append.mpr ⟨ih, nodup_singleton k, fun a here b last => ?_⟩
      rw [mem_singleton] at last
      rintro rfl
      exact absent (last ▸ mem_eraseDups.mp here)

/-- An element without a key changes no group. -/
theorem grouped_concat_none {key : α → Option κ} {a : α} (none : key a = none) (l : List α) :
    grouped key (l ++ [a]) = grouped key l := by
  simp only [grouped, filterMap_append, filterMap_cons, none, filterMap_nil,
    append_nil, filter_append, filter_cons, filter_nil, reduceCtorEq,
    decide_false, Bool.false_eq_true, if_false]

theorem grouped_concat_some {key : α → Option κ} {a : α} {k : κ} (found : key a = some k)
    (l : List α) : grouped key (l ++ [a]) = pushGroup (grouped key l) k a := by
  have keys : (l ++ [a]).filterMap key = l.filterMap key ++ [k] := by
    rw [filterMap_append, filterMap_cons_some found, filterMap_nil]
  have members : ∀ other, (l ++ [a]).filter (fun a => decide (key a = some other)) =
      if other = k then l.filter (fun a => decide (key a = some other)) ++ [a]
      else l.filter fun a => decide (key a = some other) := by
    intro other
    rw [filter_append]
    by_cases same : other = k
    · simp [same, found]
    · have different : ¬k = other := fun equal => same equal.symm
      simp [same, found, different]
  rw [grouped, grouped, keys, eraseDups_concat,
    pushGroup_map (fun k => l.filter fun a => decide (key a = some k)) (nodup_eraseDups _)]
  simp only [mem_eraseDups]
  split
  · exact map_congr_left fun other _ => by rw [members]
  · next absent =>
    have empty : l.filter (fun a => decide (key a = some k)) = [] := by
      rw [filter_eq_nil_iff]
      intro b member here
      exact absent (mem_filterMap.mpr ⟨b, member, of_decide_eq_true here⟩)
    rw [map_append, map_singleton, members, if_pos rfl, empty, nil_append]
    refine congrArg (· ++ _) (map_congr_left fun other member => ?_)
    have different : other ≠ k := by
      rintro rfl
      exact absent (mem_eraseDups.mp member)
    rw [members, if_neg different]

/-- Where only one key has elements, they are all there is. -/
theorem flatMap_sublist_of_single {f : κ → List α} {keys : List κ} (distinct : keys.Nodup) {k : κ}
    (others : ∀ key ∈ keys, key ≠ k → f key = []) : (keys.flatMap f).Sublist (f k) := by
  induction keys with
  | nil => exact nil_sublist _
  | cons key keys ih =>
    obtain ⟨absent, distinct⟩ := nodup_cons.mp distinct
    rw [forall_mem_cons] at others
    rw [flatMap_cons]
    by_cases same : key = k
    · subst same
      have rest : keys.flatMap f = [] := by
        rw [flatMap_eq_nil_iff]
        intro other member
        refine others.2 other member ?_
        rintro rfl
        exact absent member
      rw [rest, append_nil]
    · rw [others.1 same, nil_append]
      exact ih distinct others.2

end Grouping
