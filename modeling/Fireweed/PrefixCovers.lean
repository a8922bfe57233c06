import Mathlib

/-!
# Covers by outermost words

Words are ordered so that a word comes before those that start with it, and so
that the words that start with it follow it without a gap. One pass over a
sorted list then keeps the words that no other one covers, and the last kept
word that is not after a given one decides whether any of them covers it.
-/

namespace PrefixCovers

open List

section Words

variable {κ : Type} {starts : κ → κ → Bool}

/-- Keep a word unless the last kept one covers it; `starts b a` says that `b` starts with `a`. -/
def keep (starts : κ → κ → Bool) (kept : List κ) (word : κ) : List κ :=
  if kept.getLast?.any (starts word) then kept else kept ++ [word]

def outermost (starts : κ → κ → Bool) (words : List κ) : List κ := words.foldl (keep starts) []

theorem outermost_snoc (words : List κ) (word : κ) :
    outermost starts (words ++ [word]) = keep starts (outermost starts words) word := by
  simp [outermost]

theorem mem_keep {kept : List κ} {word k : κ} (member : k ∈ keep starts kept word) :
    k ∈ kept ∨ k = word := by
  rw [keep] at member
  split_ifs at member
  · exact .inl member
  · simpa using member

theorem outermost_subset (words : List κ) : outermost starts words ⊆ words := by
  induction words using reverseRecOn with
  | nil => exact Subset.refl _
  | append_singleton words word ih =>
    intro k member
    rw [outermost_snoc] at member
    rcases mem_keep member with old | rfl
    · exact mem_append_left _ (ih old)
    · exact mem_append_right _ mem_cons_self

end Words

section Order

variable {κ : Type} [LinearOrder κ] {starts : κ → κ → Bool}

structure Lexical (starts : κ → κ → Bool) : Prop where
  refl (a : κ) : starts a a = true
  trans {a b c : κ} : starts b a = true → starts c b = true → starts c a = true
  le {a b : κ} : starts b a = true → a ≤ b
  between {a b c : κ} : a ≤ b → b ≤ c → starts c a = true → starts b a = true

/-- No kept word starts with another one. -/
def Apart (starts : κ → κ → Bool) (kept : List κ) : Prop :=
  kept.Pairwise fun a b => a < b ∧ starts b a = false

/-- In a list that ascends the last element is the greatest. -/
theorem le_getLast {kept : List κ} (apart : Apart starts kept) {a last : κ} (member : a ∈ kept)
    (ends : kept.getLast? = some last) : a ≤ last := by
  obtain ⟨init, rfl⟩ := getLast?_eq_some_iff.mp ends
  rcases mem_append.mp member with earlier | same
  · exact le_of_lt ((pairwise_append.mp apart).2.2 a earlier last mem_cons_self).1
  · rw [mem_singleton.mp same]

/-- Of a list that ascends the words up to `x` come first. -/
theorem mem_takeWhile_of_le {kept : List κ} (apart : Apart starts kept) {k x : κ}
    (member : k ∈ kept) (low : k ≤ x) : k ∈ kept.takeWhile fun k => decide (k ≤ x) := by
  induction kept with
  | nil => cases member
  | cons a kept ih =>
    obtain ⟨first, others⟩ := pairwise_cons.mp apart
    rcases mem_cons.mp member with rfl | later
    · rw [takeWhile_cons_of_pos (by simpa using low)]
      exact mem_cons_self
    · have below : a ≤ x := le_trans (le_of_lt (first k later).1) low
      rw [takeWhile_cons_of_pos (by simpa using below)]
      exact mem_cons_of_mem a (ih others later)

variable (lexical : Lexical starts)

include lexical

/-- The one word that can cover a later one is the last. -/
theorem covered_iff_last {kept : List κ} (apart : Apart starts kept) {word : κ}
    (before : ∀ k ∈ kept, k ≤ word) :
    kept.getLast?.any (starts word) = true ↔ ∃ k ∈ kept, starts word k = true := by
  rw [Option.any_eq_true]
  constructor
  · rintro ⟨last, ends, covers⟩
    exact ⟨last, mem_of_getLast? ends, covers⟩
  · rintro ⟨k, member, covers⟩
    cases ends : kept.getLast? with
    | none =>
      rw [getLast?_eq_none_iff.mp ends] at member
      cases member
    | some last =>
      refine ⟨last, rfl, ?_⟩
      have inside := mem_of_getLast? ends
      have covers' := lexical.between (le_getLast apart member ends) (before last inside) covers
      -- a kept word that starts with another kept one is that one
      by_cases same : k = last
      · rwa [← same]
      · obtain ⟨init, rfl⟩ := getLast?_eq_some_iff.mp ends
        rcases mem_append.mp member with earlier | final
        · have differ := (pairwise_append.mp apart).2.2 k earlier last mem_cons_self
          rw [covers'] at differ
          exact absurd differ.2 (by decide)
        · exact absurd (mem_singleton.mp final) same

theorem apart_outermost {words : List κ} (sorted : words.Pairwise (· < ·)) :
    Apart starts (outermost starts words) := by
  induction words using reverseRecOn with
  | nil => exact .nil
  | append_singleton words word ih =>
    obtain ⟨left, -, before⟩ := pairwise_append.mp sorted
    have apart := ih left
    have below : ∀ k ∈ outermost starts words, k < word :=
      fun k member => before k (outermost_subset words member) word mem_cons_self
    rw [outermost_snoc, keep]
    split_ifs with covered
    · exact apart
    · refine pairwise_append.mpr ⟨apart, pairwise_singleton _ _, ?_⟩
      intro k member w single
      rw [mem_singleton.mp single]
      refine ⟨below k member, ?_⟩
      rw [covered_iff_last lexical apart fun k member => le_of_lt (below k member)] at covered
      exact Bool.eq_false_iff.mpr fun covers => covered ⟨k, member, covers⟩

/-- Every word starts with a kept one. -/
theorem exists_outermost {words : List κ} {word : κ} (member : word ∈ words) :
    ∃ k ∈ outermost starts words, starts word k = true := by
  induction words using reverseRecOn with
  | nil => cases member
  | append_singleton words last ih =>
    rw [outermost_snoc, keep]
    rcases mem_append.mp member with earlier | final
    · obtain ⟨k, kept, covers⟩ := ih earlier
      split_ifs
      · exact ⟨k, kept, covers⟩
      · exact ⟨k, mem_append_left _ kept, covers⟩
    · rw [mem_singleton.mp final]
      split_ifs with covered
      · obtain ⟨k, ends, covers⟩ := Option.any_eq_true _ _ |>.mp covered
        exact ⟨k, mem_of_getLast? ends, covers⟩
      · exact ⟨last, mem_append_right _ mem_cons_self, lexical.refl last⟩

/-- Covering by the kept words is covering by all. -/
theorem covered_outermost_iff {words : List κ} {x : κ} :
    (∃ k ∈ outermost starts words, starts x k = true) ↔ ∃ w ∈ words, starts x w = true := by
  constructor
  · rintro ⟨k, member, covers⟩
    exact ⟨k, outermost_subset words member, covers⟩
  · rintro ⟨w, member, covers⟩
    obtain ⟨k, kept, inside⟩ := exists_outermost lexical member
    exact ⟨k, kept, lexical.trans inside covers⟩

/-- The last kept word that is not after `x` tells whether any kept word covers `x`. -/
theorem covered_iff_preceding {kept : List κ} (apart : Apart starts kept) {x : κ} :
    (kept.takeWhile fun k => decide (k ≤ x)).getLast?.any (starts x) = true ↔
      ∃ k ∈ kept, starts x k = true := by
  have initial : Apart starts (kept.takeWhile fun k => decide (k ≤ x)) :=
    apart.sublist (takeWhile_sublist _)
  rw [covered_iff_last lexical initial fun k member => by
    simpa using mem_takeWhile_imp member]
  constructor
  · rintro ⟨k, member, covers⟩
    exact ⟨k, (takeWhile_sublist _).subset member, covers⟩
  · rintro ⟨k, member, covers⟩
    exact ⟨k, mem_takeWhile_of_le apart member (lexical.le covers), covers⟩

end Order

/-! ## Lists -/

section Lists

variable {α : Type} [LinearOrder α]

theorem cons_le_cons_iff {x y : α} {a b : List α} : x :: a ≤ y :: b ↔ x < y ∨ x = y ∧ a ≤ b := by
  rw [← not_lt, ← not_lt, cons_lt_cons_iff]
  constructor
  · intro notLess
    rcases lt_trichotomy x y with less | same | greater
    · exact .inl less
    · exact .inr ⟨same, fun below => notLess (.inr ⟨same.symm, below⟩)⟩
    · exact absurd (.inl greater) notLess
  · rintro (less | ⟨rfl, below⟩) (less' | ⟨same, below'⟩)
    · exact lt_asymm less less'
    · exact lt_irrefl _ (same ▸ less)
    · exact lt_irrefl _ less'
    · exact below below'

theorem prefix_of_between {a b c : List α} (low : a ≤ b) (high : b ≤ c) (initial : a <+: c) :
    a <+: b := by
  induction a generalizing b c with
  | nil => exact nil_prefix
  | cons x a ih =>
    obtain ⟨rest, rfl⟩ := initial
    cases b with
    | nil => exact absurd low (not_le.mpr (nil_lt_cons x a))
    | cons y b =>
      rw [cons_append] at high
      rcases cons_le_cons_iff.mp low with less | ⟨rfl, low'⟩
      · rcases cons_le_cons_iff.mp high with less' | ⟨rfl, -⟩
        · exact absurd (lt_trans less less') (lt_irrefl x)
        · exact absurd less (lt_irrefl _)
      · rcases cons_le_cons_iff.mp high with less' | ⟨-, high'⟩
        · exact absurd less' (lt_irrefl x)
        · exact cons_prefix_cons.mpr ⟨rfl, ih low' high' (prefix_append a rest)⟩

theorem le_of_isPrefix {a b : List α} (initial : a <+: b) : a ≤ b := by
  induction a generalizing b with
  | nil => exact not_lt.mp (not_lt_nil b)
  | cons x a ih =>
    obtain ⟨rest, rfl⟩ := initial
    exact cons_le_cons_iff.mpr (.inr ⟨rfl, ih (prefix_append a rest)⟩)

end Lists

end PrefixCovers
