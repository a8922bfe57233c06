import Fireweed.BTree

/-!
# Buckets of members under ordered keys

A map from a key to a set of members that never keeps an empty set: adding opens
a bucket on demand, dropping the last member closes it. Two such maps with the
same members under the same keys are equal.
-/

open BTree Std

structure Buckets (κ ι : Type) [Ord κ] [TransOrd κ] [Ord ι] [TransOrd ι] where
  entries : BTreeMap κ (BTreeSet ι)
  filled : ∀ (k : κ) (s : BTreeSet ι), entries[k]? = some s → s.isEmpty = false

namespace Buckets

variable {κ ι : Type} [Ord κ] [TransOrd κ] [LawfulEqOrd κ] [Ord ι] [TransOrd ι] [LawfulEqOrd ι]

def empty : Buckets κ ι := ⟨∅, by simp⟩

/-- The members under a key, none if there is no bucket. -/
def bucket (b : Buckets κ ι) (k : κ) : BTreeSet ι := b.entries[k]?.getD ∅

def Has (b : Buckets κ ι) (k : κ) (i : ι) : Prop := i ∈ b.bucket k

omit [LawfulEqOrd κ] [LawfulEqOrd ι] in
theorem isEmpty_insert_eq_false (s : BTreeSet ι) (i : ι) : (s.insert i).isEmpty = false := by
  simp

/-- `entry(k).or_default().insert(i)`. -/
def add (b : Buckets κ ι) (k : κ) (i : ι) : Buckets κ ι where
  entries := b.entries.insert k ((b.bucket k).insert i)
  filled := forall_insert (isEmpty_insert_eq_false _ i) b.filled

/-- Take a member out of a bucket and close the bucket when it was the last one. -/
def drop (b : Buckets κ ι) (k : κ) (i : ι) : Buckets κ ι where
  entries :=
    if ((b.bucket k).erase i).isEmpty then b.entries.erase k
    else b.entries.insert k ((b.bucket k).erase i)
  filled a s found := by
    by_cases same : k = a
    · subst same
      split at found
      · rw [get_erase_self] at found
        cases found
      · next open_ =>
        rw [get_insert_self] at found
        cases found
        simpa using open_
    · have unchanged : b.entries[a]? = some s := by
        split at found
        · rwa [get_erase_ne _ same] at found
        · rwa [get_insert_ne _ _ same] at found
      exact b.filled a s unchanged

omit [LawfulEqOrd ι] in
theorem bucket_add [DecidableEq κ] (b : Buckets κ ι) (k a : κ) (i : ι) :
    (b.add k i).bucket a = if k = a then (b.bucket k).insert i else b.bucket a := by
  by_cases same : k = a
  · subst same
    simp [bucket, add]
  · simp [bucket, add, get_insert_ne _ _ same, same]

omit [LawfulEqOrd ι] in
theorem bucket_drop [DecidableEq κ] (b : Buckets κ ι) (k a : κ) (i : ι) :
    (b.drop k i).bucket a = if k = a then (b.bucket k).erase i else b.bucket a := by
  by_cases same : k = a
  · subst same
    rw [bucket, drop, if_pos rfl]
    split
    · next closed =>
      rw [get_erase_self, ExtTreeSet.isEmpty_iff.mp closed]
      rfl
    · rw [get_insert_self]
      rfl
  · rw [bucket, drop, if_neg same]
    split
    · rw [get_erase_ne _ same]
      rfl
    · rw [get_insert_ne _ _ same]
      rfl

variable [DecidableEq κ]

@[simp] theorem has_add {b : Buckets κ ι} {k a : κ} {i j : ι} :
    (b.add k i).Has a j ↔ (a = k ∧ j = i) ∨ b.Has a j := by
  rw [Has, bucket_add]
  by_cases same : k = a
  · subst same
    rw [if_pos rfl, ExtTreeSet.mem_insert, LawfulEqCmp.compare_eq_iff_eq]
    simp [Has, eq_comm]
  · simp [Has, same, Ne.symm same]

@[simp] theorem has_drop {b : Buckets κ ι} {k a : κ} {i j : ι} :
    (b.drop k i).Has a j ↔ b.Has a j ∧ ¬(a = k ∧ j = i) := by
  rw [Has, bucket_drop]
  by_cases same : k = a
  · subst same
    simp only [Has, if_pos, ExtTreeSet.mem_erase, true_and]
    constructor
    · rintro ⟨different, member⟩
      exact ⟨member, fun equal => different (by simp [equal])⟩
    · rintro ⟨member, different⟩
      exact ⟨fun equal => different (LawfulEqCmp.eq_of_compare equal).symm, member⟩
  · simp [Has, same, Ne.symm same]

/-- Adding one member under every key of a list. -/
theorem has_foldl_add (l : List κ) (b : Buckets κ ι) (i : ι) {a : κ} {j : ι} :
    (l.foldl (fun b k => b.add k i) b).Has a j ↔ (a ∈ l ∧ j = i) ∨ b.Has a j := by
  induction l generalizing b with
  | nil => simp
  | cons k l ih =>
    rw [List.foldl_cons, ih]
    simp only [has_add, List.mem_cons]
    tauto

theorem has_foldl_drop (l : List κ) (b : Buckets κ ι) (i : ι) {a : κ} {j : ι} :
    (l.foldl (fun b k => b.drop k i) b).Has a j ↔ b.Has a j ∧ ¬(a ∈ l ∧ j = i) := by
  induction l generalizing b with
  | nil => simp
  | cons k l ih =>
    rw [List.foldl_cons, ih]
    simp only [has_drop, List.mem_cons]
    tauto

end Buckets
