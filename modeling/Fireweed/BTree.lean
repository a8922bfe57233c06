import Mathlib

/-!
# Ordered finite maps and sets

`BTreeMap` and `BTreeSet` are the extensional ordered containers of the standard
library at the order of the key type. Two maps with the same lookups are equal,
and iteration is in ascending key order. The lookup laws are restated with key
equality in place of `compare`, since every key order used here is lawful.
-/

namespace BTree

open List Std

/-- An ordered map; iteration through `toList` is ascending in the key. -/
abbrev BTreeMap (κ ν : Type) [Ord κ] := ExtTreeMap κ ν compare

/-- An ordered set; iteration through `toList` is ascending. -/
abbrev BTreeSet (κ : Type) [Ord κ] := ExtTreeSet κ compare

instance ordStrings : Ord (String × String) := lexOrd

instance transOrdStrings : TransOrd (String × String) := inferInstanceAs (@TransOrd _ lexOrd)

instance lawfulEqOrdStrings : LawfulEqOrd (String × String) :=
  inferInstanceAs (@LawfulEqOrd _ lexOrd)

/-- An order read off an injective key is lawful. -/
theorem lawful_compareOn {α β : Type} [Ord β] [LawfulEqOrd β] {f : α → β}
    (injective : Function.Injective f) : LawfulEqCmp (compareOn f) where
  compare_self := by simp [compareOn]
  eq_of_compare equal := injective (LawfulEqCmp.eq_of_compare equal)

section Lookup

variable {κ ν : Type} [Ord κ] [TransOrd κ] [LawfulEqOrd κ]

theorem get_insert_self (m : BTreeMap κ ν) (k : κ) (v : ν) : (m.insert k v)[k]? = some v := by
  simp

theorem get_insert_ne (m : BTreeMap κ ν) {k a : κ} (v : ν) (different : k ≠ a) :
    (m.insert k v)[a]? = m[a]? := by
  simp [ExtTreeMap.getElem?_insert, different]

theorem get_erase_self (m : BTreeMap κ ν) (k : κ) : (m.erase k)[k]? = none := by
  simp

theorem get_erase_ne (m : BTreeMap κ ν) {k a : κ} (different : k ≠ a) :
    (m.erase k)[a]? = m[a]? := by
  simp [ExtTreeMap.getElem?_erase, different]

theorem get_insert [DecidableEq κ] (m : BTreeMap κ ν) (k a : κ) (v : ν) :
    (m.insert k v)[a]? = if k = a then some v else m[a]? := by
  simp [ExtTreeMap.getElem?_insert]

theorem get_erase [DecidableEq κ] (m : BTreeMap κ ν) (k a : κ) :
    (m.erase k)[a]? = if k = a then none else m[a]? := by
  simp [ExtTreeMap.getElem?_erase]

theorem get_insert_others (m : BTreeMap κ ν) (k : κ) (v : ν) :
    ∀ a ≠ k, (m.insert k v)[a]? = m[a]? :=
  fun _ different => get_insert_ne m v (Ne.symm different)

theorem get_erase_others (m : BTreeMap κ ν) (k : κ) : ∀ a ≠ k, (m.erase k)[a]? = m[a]? :=
  fun _ different => get_erase_ne m (Ne.symm different)

theorem get_erase_self_ne (m : BTreeMap κ ν) (k : κ) (v : ν) : (m.erase k)[k]? ≠ some v := by
  simp

omit [TransOrd κ] [LawfulEqOrd κ] in
/-- What holds of the value of a key holds of all that is found there. -/
theorem of_get [TransOrd κ] {m : BTreeMap κ ν} {k : κ} {v : ν} {p : ν → Prop}
    (found : m[k]? = some v) (here : p v) : ∀ w, m[k]? = some w → p w := by
  intro w atK
  rw [found] at atK
  cases atK
  exact here

theorem of_get_insert {m : BTreeMap κ ν} {k : κ} {v : ν} {p : ν → Prop} (here : p v) :
    ∀ w, (m.insert k v)[k]? = some w → p w :=
  of_get (get_insert_self ..) here

theorem of_get_erase {m : BTreeMap κ ν} {k : κ} {p : ν → Prop} :
    ∀ w, (m.erase k)[k]? = some w → p w :=
  fun w found => absurd found (get_erase_self_ne m k w)

/-- What holds of the entries of a map holds of them after an insertion, if it holds of the new
entry. -/
theorem forall_insert {m : BTreeMap κ ν} {k : κ} {v : ν} {p : κ → ν → Prop} (here : p k v)
    (others : ∀ a b, m[a]? = some b → p a b) : ∀ a b, (m.insert k v)[a]? = some b → p a b := by
  intro a b found
  by_cases same : k = a
  · subst same
    exact of_get_insert here b found
  · rw [get_insert_ne _ _ same] at found
    exact others a b found

theorem forall_erase {m : BTreeMap κ ν} {k : κ} {p : κ → ν → Prop}
    (others : ∀ a b, m[a]? = some b → p a b) : ∀ a b, (m.erase k)[a]? = some b → p a b := by
  intro a b found
  by_cases same : k = a
  · subst same
    exact of_get_erase b found
  · rw [get_erase_ne _ same] at found
    exact others a b found

omit [LawfulEqOrd κ] in
theorem mem_iff_get (m : BTreeMap κ ν) (k : κ) : k ∈ m ↔ ∃ v, m[k]? = some v := by
  rw [ExtTreeMap.mem_iff_isSome_getElem?, Option.isSome_iff_exists]

omit [LawfulEqOrd κ] in
theorem not_mem_iff_get (m : BTreeMap κ ν) (k : κ) : k ∉ m ↔ m[k]? = none := by
  rw [mem_iff_get, ← Option.not_isSome_iff_eq_none, Option.isSome_iff_exists]

/-- Copy the entry of one key, if there is one. -/
def copyEntry (source out : BTreeMap κ ν) (k : κ) : BTreeMap κ ν :=
  match source[k]? with
  | some v => out.insert k v
  | none => out

theorem get_copyEntry_self {source out : BTreeMap κ ν} {k : κ}
    (part : out[k]? = source[k]? ∨ out[k]? = none) : (copyEntry source out k)[k]? = source[k]? := by
  rw [copyEntry]
  cases found : source[k]? with
  | some v => rw [get_insert_self]
  | none => rcases part with same | missing <;> simp_all

theorem get_copyEntry_ne (source out : BTreeMap κ ν) {k a : κ} (different : k ≠ a) :
    (copyEntry source out k)[a]? = out[a]? := by
  rw [copyEntry]
  cases source[k]? with
  | some v => rw [get_insert_ne _ _ different]
  | none => rfl

theorem insert_same (m : BTreeMap κ ν) {k : κ} {v : ν} (present : m[k]? = some v) :
    m.insert k v = m := by
  apply ExtTreeMap.ext_getElem?
  intro a
  by_cases same : k = a
  · subst same
    rw [get_insert_self, present]
  · exact get_insert_ne m v same

end Lookup

section Iteration

variable {κ ν : Type} [Ord κ] [TransOrd κ] [LawfulEqOrd κ]

theorem mem_toList_iff (m : BTreeMap κ ν) (k : κ) (v : ν) : (k, v) ∈ m.toList ↔ m[k]? = some v :=
  ExtTreeMap.mem_toList_iff_getElem?_eq_some

omit [LawfulEqOrd κ] in
theorem keys_toList_nodup (m : BTreeMap κ ν) : (m.toList.map Prod.fst).Nodup := by
  rw [ExtTreeMap.map_fst_toList_eq_keys]
  exact ExtTreeMap.nodup_keys

/-- Two ascending lists over one order with the same members are the same list. -/
theorem ascending_unique {l r : List κ} (left : l.Pairwise (fun a b => compare a b = .lt))
    (right : r.Pairwise (fun a b => compare a b = .lt)) (same : ∀ a, a ∈ l ↔ a ∈ r) : l = r := by
  have nodup : ∀ {s : List κ}, s.Pairwise (fun a b => compare a b = .lt) → s.Nodup := by
    intro s ordered
    refine ordered.imp ?_
    intro a b less equal
    subst equal
    simp at less
  have perm : l.Perm r := (perm_ext_iff_of_nodup (nodup left) (nodup right)).mpr same
  refine perm.eq_of_pairwise ?_ left right
  intro a b _ _ ab ba
  rw [OrientedOrd.eq_swap, ba] at ab
  cases ab

theorem keys_eq_of_same_domain {ν' : Type} (m : BTreeMap κ ν) (n : BTreeMap κ ν')
    (same : ∀ k : κ, m[k]?.isSome = n[k]?.isSome) :
    m.toList.map Prod.fst = n.toList.map Prod.fst := by
  simp only [ExtTreeMap.map_fst_toList_eq_keys]
  refine ascending_unique ExtTreeMap.ordered_keys ExtTreeMap.ordered_keys ?_
  intro a
  rw [ExtTreeMap.mem_keys, ExtTreeMap.mem_keys, ExtTreeMap.mem_iff_isSome_getElem?,
    ExtTreeMap.mem_iff_isSome_getElem?, same a]

end Iteration

section Cursors

variable {κ ν : Type} [Ord κ]

/-- Pass the entries before a key. -/
def seek (k : κ) (entries : List (κ × ν)) : List (κ × ν) :=
  entries.dropWhile fun entry => decide (compare entry.1 k = .lt)

/-- The value in front, if it is that of the key. -/
def peekAt (k : κ) : List (κ × ν) → Option ν
  | [] => none
  | entry :: _ => if compare entry.1 k = .eq then some entry.2 else none

theorem seek_cons_below {k : κ} {entry : κ × ν} (below : compare entry.1 k = .lt)
    (entries : List (κ × ν)) : seek k (entry :: entries) = seek k entries :=
  dropWhile_cons_of_pos (decide_eq_true below)

theorem seek_cons_stop {k : κ} {entry : κ × ν} (stop : compare entry.1 k ≠ .lt)
    (entries : List (κ × ν)) : seek k (entry :: entries) = entry :: entries :=
  dropWhile_cons_of_neg (by simpa using stop)

/-- What a cursor passed on its way to an earlier key is not missed at a later one. -/
theorem seek_seek [TransOrd κ] {k k' : κ} (later : compare k k' = .lt) (entries : List (κ × ν)) :
    seek k' (seek k entries) = seek k' entries := by
  induction entries with
  | nil => rfl
  | cons entry entries ih =>
    by_cases passed : compare entry.1 k = .lt
    · rw [seek_cons_below passed, seek_cons_below (TransCmp.lt_trans passed later), ih]
    · rw [seek_cons_stop passed]

/-- Over ascending keys the front of the cursor tells whether there is an entry. -/
theorem peekAt_seek_eq_some [LawfulEqOrd κ] {k : κ} {v : ν} {entries : List (κ × ν)}
    (ascending : entries.Pairwise fun a b => compare a.1 b.1 = .lt) :
    peekAt k (seek k entries) = some v ↔ (k, v) ∈ entries := by
  induction entries with
  | nil => simp [seek, peekAt]
  | cons entry entries ih =>
    obtain ⟨above, ascending⟩ := pairwise_cons.mp ascending
    by_cases passed : compare entry.1 k = .lt
    · have other : (k, v) ≠ entry := by
        rintro rfl
        simp at passed
      rw [seek_cons_below passed, ih ascending, mem_cons, or_iff_right other]
    · -- the keys behind the front are greater than the front
      have behind : (k, v) ∉ entries := fun member => passed (above (k, v) member)
      obtain ⟨front, w⟩ := entry
      rw [seek_cons_stop passed, mem_cons, or_iff_left behind]
      by_cases here : compare front k = .eq
      · obtain rfl := LawfulEqOrd.eq_of_compare here
        rw [peekAt, if_pos here]
        simp [eq_comm]
      · have other : k ≠ front := by
          rintro rfl
          simp at here
        rw [peekAt, if_neg here]
        simp [other]

/-- A cursor over a map finds what a lookup finds. -/
theorem peekAt_seek [TransOrd κ] [LawfulEqOrd κ] (m : BTreeMap κ ν) (k : κ) :
    peekAt k (seek k m.toList) = m[k]? := by
  apply Option.ext
  intro v
  rw [peekAt_seek_eq_some ExtTreeMap.ordered_keys_toList, mem_toList_iff]

end Cursors

/-- Elementwise comparison of two maps in iteration order, after their lengths. -/
def mapEq {κ ν : Type} [Ord κ] [BEq κ] [TransOrd κ] (eq : ν → ν → Bool)
    (a b : BTreeMap κ ν) : Bool :=
  a.size == b.size && (a.toList.zip b.toList).all fun pair =>
    pair.1.1 == pair.2.1 && eq pair.1.2 pair.2.2

/-- Comparison of optional values from a comparison of values. -/
def optionEq {ν : Type} (eq : ν → ν → Bool) : Option ν → Option ν → Bool
  | none, none => true
  | some a, some b => eq a b
  | _, _ => false

theorem forall₂_mem_left {α β : Type} {r : α → β → Prop} {l : List α} {m : List β}
    (related : Forall₂ r l m) {a : α} (member : a ∈ l) : ∃ b ∈ m, r a b := by
  induction related with
  | nil => cases member
  | cons head _ ih =>
    rcases mem_cons.mp member with rfl | member
    · exact ⟨_, mem_cons_self, head⟩
    · obtain ⟨b, found, here⟩ := ih member
      exact ⟨b, mem_cons_of_mem _ found, here⟩

theorem forall₂_mem_right {α β : Type} {r : α → β → Prop} {l : List α} {m : List β}
    (related : Forall₂ r l m) {b : β} (member : b ∈ m) : ∃ a ∈ l, r a b := by
  have flipped : Forall₂ (flip r) m l := related.flip
  exact forall₂_mem_left flipped member

section Comparison

variable {κ ν : Type} [Ord κ] [TransOrd κ] [LawfulEqOrd κ] [BEq κ] [LawfulBEq κ]
variable (eq : ν → ν → Bool)

omit [LawfulEqOrd κ] in
theorem mapEq_forall₂ (a b : BTreeMap κ ν) :
    mapEq eq a b = true ↔
      Forall₂ (fun x y => x.1 = y.1 ∧ eq x.2 y.2 = true) a.toList b.toList := by
  rw [forall₂_iff_zip, mapEq, Bool.and_eq_true, all_eq_true]
  simp only [beq_iff_eq, Bool.and_eq_true, ExtTreeMap.length_toList, Prod.forall]

/-- Comparing two maps entry by entry is comparing them at every key. -/
theorem mapEq_iff (a b : BTreeMap κ ν) :
    mapEq eq a b = true ↔ ∀ k : κ, optionEq eq a[k]? b[k]? = true := by
  rw [mapEq_forall₂]
  constructor
  · intro related k
    cases left : a[k]? with
    | some v =>
      obtain ⟨⟨k', w⟩, member, same, equal⟩ :=
        forall₂_mem_left related ((mem_toList_iff a k v).mpr left)
      have right := (mem_toList_iff b k' w).mp member
      obtain rfl : k = k' := same
      simpa [right, optionEq] using equal
    | none =>
      cases right : b[k]? with
      | none => rfl
      | some w =>
        obtain ⟨⟨k', v⟩, member, same, _⟩ :=
          forall₂_mem_right related ((mem_toList_iff b k w).mpr right)
        obtain rfl : k' = k := same
        rw [(mem_toList_iff a k' v).mp member] at left
        cases left
  · intro pointwise
    have domain : ∀ k : κ, a[k]?.isSome = b[k]?.isSome := by
      intro k
      have here := pointwise k
      revert here
      cases a[k]? <;> cases b[k]? <;> simp [optionEq]
    have keys := keys_eq_of_same_domain a b domain
    rw [forall₂_iff_zip]
    refine ⟨by simpa using congrArg length keys, ?_⟩
    rintro ⟨k, v⟩ ⟨k', w⟩ member
    have same : k = k' := by
      have paired : (k, k') ∈ (a.toList.map Prod.fst).zip (b.toList.map Prod.fst) := by
        rw [zip_map]
        exact mem_map.mpr ⟨_, member, rfl⟩
      rw [keys] at paired
      rw [zip, zipWith_self] at paired
      obtain ⟨_, _, pair⟩ := mem_map.mp paired
      exact (congrArg Prod.fst pair).symm.trans (congrArg Prod.snd pair)
    subst same
    refine ⟨rfl, ?_⟩
    have left := (mem_toList_iff a k v).mp (of_mem_zip member).1
    have right := (mem_toList_iff b k w).mp (of_mem_zip member).2
    simpa [left, right, optionEq] using pointwise k

end Comparison

/-- A map contained in another of the same size has the same keys. -/
theorem same_domain_of_size {κ ν ν' : Type} [Ord κ] [TransOrd κ] [LawfulEqOrd κ]
    (a : BTreeMap κ ν) (b : BTreeMap κ ν') (size : a.size = b.size)
    (within : ∀ k, k ∈ a → k ∈ b) (k : κ) : k ∈ b ↔ k ∈ a := by
  have subset : a.keys ⊆ b.keys := fun k member => by
    rw [ExtTreeMap.mem_keys] at member ⊢
    exact within k member
  have perm : a.keys.Perm b.keys :=
    (subperm_of_subset ExtTreeMap.nodup_keys subset).perm_of_length_le
      (by rw [ExtTreeMap.length_keys, ExtTreeMap.length_keys, size])
  rw [← ExtTreeMap.mem_keys, ← ExtTreeMap.mem_keys, perm.mem_iff]

/-- A map that holds distinct keys, as many as it has entries, holds exactly these keys. -/
theorem size_eq_length_iff {κ ν : Type} [Ord κ] [TransOrd κ] [LawfulEqOrd κ] (m : BTreeMap κ ν)
    {l : List κ} (distinct : l.Nodup) :
    (m.size = l.length ∧ ∀ k ∈ l, k ∈ m) ↔ ∀ k, k ∈ m ↔ k ∈ l := by
  constructor
  · rintro ⟨size, within⟩ k
    have subset : l ⊆ m.keys := fun k member => ExtTreeMap.mem_keys.mpr (within k member)
    have perm : l.Perm m.keys := (subperm_of_subset distinct subset).perm_of_length_le
      (by rw [ExtTreeMap.length_keys, size])
    rw [← ExtTreeMap.mem_keys, perm.mem_iff]
  · intro same
    have perm : m.keys.Perm l := (perm_ext_iff_of_nodup ExtTreeMap.nodup_keys distinct).mpr
      fun k => ExtTreeMap.mem_keys.trans (same k)
    exact ⟨by rw [← ExtTreeMap.length_keys, perm.length_eq], fun k member => (same k).mpr member⟩

section Folds

variable {κ ν α : Type} [Ord κ] [TransOrd κ] [LawfulEqOrd κ]

/-- Inserting a list of entries leaves the other keys alone. -/
theorem get_foldl_insert_of_not_mem (key : α → κ) (value : α → ν) {l : List α} {k : κ}
    (m : BTreeMap κ ν) (absent : k ∉ l.map key) :
    (l.foldl (fun m a => m.insert (key a) (value a)) m)[k]? = m[k]? := by
  induction l generalizing m with
  | nil => rfl
  | cons a l ih =>
    simp only [map_cons, mem_cons, not_or] at absent
    rw [foldl_cons, ih _ absent.2, get_insert_ne _ _ (Ne.symm absent.1)]

theorem get_foldl_insert_of_mem (key : α → κ) (value : α → ν) {l : List α} {a : α}
    (m : BTreeMap κ ν) (distinct : (l.map key).Nodup) (member : a ∈ l) :
    (l.foldl (fun m a => m.insert (key a) (value a)) m)[key a]? = some (value a) := by
  induction l generalizing m with
  | nil => cases member
  | cons b l ih =>
    rw [map_cons, nodup_cons] at distinct
    rw [foldl_cons]
    rcases mem_cons.mp member with rfl | later
    · rw [get_foldl_insert_of_not_mem key value _ distinct.1, get_insert_self]
    · exact ih _ distinct.2 later

theorem get_foldl_erase (l : List κ) (m : BTreeMap κ ν) [DecidableEq κ] (k : κ) :
    (l.foldl (fun m a => m.erase a) m)[k]? = if k ∈ l then none else m[k]? := by
  induction l generalizing m with
  | nil => simp
  | cons a l ih =>
    rw [foldl_cons, ih]
    by_cases here : k = a
    · subst here
      simp
    · rw [get_erase_ne _ (Ne.symm here)]
      simp [here]

omit [LawfulEqOrd κ] in
/-- A fold that turns the values of the listed keys, where turning twice is turning once. -/
theorem get_foldl_turn [DecidableEq κ] {step : BTreeMap κ ν → κ → BTreeMap κ ν} (turn : ν → ν)
    (once : ∀ (m : BTreeMap κ ν) (k a : κ),
      (step m k)[a]? = if a = k then m[a]?.map turn else m[a]?)
    (twice : ∀ v, turn (turn v) = turn v) (l : List κ) (m : BTreeMap κ ν) (a : κ) :
    (l.foldl step m)[a]? = if a ∈ l then m[a]?.map turn else m[a]? := by
  induction l generalizing m with
  | nil => rfl
  | cons k l ih =>
    rw [foldl_cons, ih, once]
    by_cases same : a = k
    · simp [same, Function.comp_def, twice]
    · simp [same]

omit [TransOrd κ] in
theorem pairwise_ne_of_nodup {l : List (κ × ν)} (distinct : (l.map Prod.fst).Nodup) :
    l.Pairwise fun a b => ¬compare a.1 b.1 = .eq := by
  rw [Nodup, pairwise_map] at distinct
  exact distinct.imp fun different equal => different (LawfulEqCmp.eq_of_compare equal)

theorem get_ofList_of_mem {l : List (κ × ν)} {k : κ} {v : ν} (distinct : (l.map Prod.fst).Nodup)
    (member : (k, v) ∈ l) : (ExtTreeMap.ofList l compare : BTreeMap κ ν)[k]? = some v :=
  ExtTreeMap.getElem?_ofList_of_mem ReflCmp.compare_self (pairwise_ne_of_nodup distinct) member

omit [LawfulEqOrd κ] in
theorem get_ofList_of_not_mem [BEq κ] [LawfulBEq κ] [LawfulBEqOrd κ] {l : List (κ × ν)} {k : κ}
    (absent : k ∉ l.map Prod.fst) : (ExtTreeMap.ofList l compare : BTreeMap κ ν)[k]? = none :=
  ExtTreeMap.getElem?_ofList_of_contains_eq_false (by simpa using absent)

theorem mem_setOfList [DecidableEq κ] {l : List κ} {k : κ} :
    k ∈ (ExtTreeSet.ofList l compare : BTreeSet κ) ↔ k ∈ l := by
  rw [ExtTreeSet.mem_ofList, contains_iff_mem]

/-- The set of a list has as many members as the list when the list repeats none. -/
theorem size_setOfList_eq_length [DecidableEq κ] {l : List κ} :
    (ExtTreeSet.ofList l compare : BTreeSet κ).size = l.length ↔ l.Nodup := by
  have members : ∀ k, k ∈ (ExtTreeSet.ofList l compare : BTreeSet κ).toList ↔ k ∈ l := fun k =>
    ExtTreeSet.mem_toList.trans mem_setOfList
  have nodup : (ExtTreeSet.ofList l compare : BTreeSet κ).toList.Nodup :=
    ExtTreeSet.distinct_toList.imp fun different equal => different (by rw [equal]; simp)
  rw [← ExtTreeSet.length_toList]
  constructor
  · intro size
    have perm := (subperm_of_subset nodup fun k member => (members k).mp member)
      |>.perm_of_length_le size.ge
    exact perm.nodup_iff.mp nodup
  · intro distinct
    exact ((perm_ext_iff_of_nodup nodup distinct).mpr members).length_eq

end Folds

section Counting

variable {κ ν : Type} [Ord κ] [TransOrd κ] [LawfulEqOrd κ]

/-- How many values of a map pass a test. -/
def countWhere (m : BTreeMap κ ν) (test : ν → Bool) : Nat :=
  m.toList.countP fun entry => test entry.2

/-- The keys whose values pass a test, in order. -/
def keysWhere (m : BTreeMap κ ν) (test : ν → Bool) : List κ :=
  (m.toList.filter fun entry => test entry.2).map Prod.fst

omit [LawfulEqOrd κ] in
theorem length_keysWhere (m : BTreeMap κ ν) (test : ν → Bool) :
    (keysWhere m test).length = countWhere m test := by
  rw [keysWhere, length_map, countWhere, countP_eq_length_filter]

theorem mem_keysWhere {m : BTreeMap κ ν} {test : ν → Bool} {k : κ} :
    k ∈ keysWhere m test ↔ m[k]?.any test = true := by
  simp only [keysWhere, mem_map, mem_filter, Prod.exists, mem_toList_iff]
  constructor
  · rintro ⟨_, v, ⟨found, passes⟩, rfl⟩
    simpa [found] using passes
  · intro passes
    cases found : m[k]? with
    | none => simp [found] at passes
    | some v => exact ⟨k, v, ⟨found, by simpa [found] using passes⟩, rfl⟩

omit [LawfulEqOrd κ] in
theorem nodup_keysWhere (m : BTreeMap κ ν) (test : ν → Bool) : (keysWhere m test).Nodup :=
  (keys_toList_nodup m).sublist (filter_sublist.map _)

theorem countWhere_congr {ν' : Type} {m : BTreeMap κ ν} {n : BTreeMap κ ν'} {p : ν → Bool}
    {q : ν' → Bool} (same : ∀ k : κ, m[k]?.any p = n[k]?.any q) :
    countWhere m p = countWhere n q := by
  rw [← length_keysWhere, ← length_keysWhere]
  refine ((perm_ext_iff_of_nodup (nodup_keysWhere m p) (nodup_keysWhere n q)).mpr
    fun k => ?_).length_eq
  rw [mem_keysWhere, mem_keysWhere, same]

/-- The count is that of the other keys, and one if the value of the key passes. -/
theorem countWhere_erase [DecidableEq κ] (m : BTreeMap κ ν) (k : κ) (test : ν → Bool) :
    countWhere m test = countWhere (m.erase k) test + if m[k]?.any test then 1 else 0 := by
  have others : ∀ a, a ∈ keysWhere (m.erase k) test ↔ a ≠ k ∧ a ∈ keysWhere m test := by
    intro a
    rw [mem_keysWhere, mem_keysWhere, get_erase]
    by_cases same : k = a
    · simp [same]
    · simp [same, Ne.symm same]
  rw [← length_keysWhere, ← length_keysWhere]
  split
  · next passes =>
    have listed : (keysWhere m test).Perm (k :: keysWhere (m.erase k) test) := by
      refine (perm_ext_iff_of_nodup (nodup_keysWhere m test) ?_).mpr fun a => ?_
      · exact nodup_cons.mpr ⟨fun here => ((others k).mp here).1 rfl, nodup_keysWhere ..⟩
      · rw [mem_cons, others]
        by_cases same : a = k
        · simp [same, mem_keysWhere.mpr passes]
        · simp [same]
    exact listed.length_eq
  · next fails =>
    refine ((perm_ext_iff_of_nodup (nodup_keysWhere m test)
      (nodup_keysWhere (m.erase k) test)).mpr fun a => ?_).length_eq
    rw [others]
    refine ⟨fun here => ⟨?_, here⟩, fun here => here.2⟩
    rintro rfl
    exact fails (mem_keysWhere.mp here)

end Counting

end BTree
