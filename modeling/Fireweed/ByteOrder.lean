import Mathlib

/-!
# Order-preserving codes

Byte strings in their lexicographic order. `Parts u v o` says that `u` and `v`
are equal, or differ at some byte before either of them ends, and that this
decides their order as `o` whatever follows. Codes whose words part compose: the
concatenation of two codes compares first components first. Numbers of a fixed
width in big-endian order are such a code, and so is the bytewise complement of
one, with the order reversed.
-/

namespace ByteOrder

open List Std

/-! ## Words that part -/

section Words

variable {α : Type} [Ord α] {u v r s : List α} {o o' : Ordering}

/-- The order of `u` and `v` is decided as `o` by the two words themselves. -/
inductive Parts : List α → List α → Ordering → Prop where
  | nil : Parts [] [] .eq
  | cons (x : α) {u v : List α} {o : Ordering} : Parts u v o → Parts (x :: u) (x :: v) o
  | part {x y : α} (differ : compare x y ≠ .eq) (u v : List α) :
      Parts (x :: u) (y :: v) (compare x y)

namespace Parts

theorem refl (u : List α) : Parts u u .eq := by
  induction u with
  | nil => exact .nil
  | cons x u ih => exact .cons x ih

/-- A decided order does not depend on what follows the words. -/
theorem extend (parts : Parts u v o) (apart : o ≠ .eq) (r s : List α) :
    Parts (u ++ r) (v ++ s) o := by
  induction parts with
  | nil => exact absurd rfl apart
  | cons x _ ih => exact .cons x (ih apart)
  | part differ u v => exact .part differ (u ++ r) (v ++ s)

theorem eq_of_eq (parts : Parts u v .eq) : u = v := by
  generalize order : Ordering.eq = o at parts
  induction parts with
  | nil => rfl
  | cons x _ ih => rw [ih order]
  | part differ u v => exact absurd order.symm differ

/-- First components first. -/
theorem append (first : Parts u v o) (second : Parts r s o') :
    Parts (u ++ r) (v ++ s) (o.then o') := by
  cases o with
  | eq =>
    obtain rfl := first.eq_of_eq
    clear first
    induction u with
    | nil => exact second
    | cons x u ih => exact .cons x ih
  | lt => exact first.extend (by decide) r s
  | gt => exact first.extend (by decide) r s

theorem single [LawfulEqOrd α] (x y : α) : Parts [x] [y] (compare x y) := by
  by_cases same : compare x y = .eq
  · rw [same, LawfulEqOrd.eq_of_compare same]
    exact refl [y]
  · exact .part same [] []

variable [ReflOrd α]

theorem compare_append (parts : Parts u v o) (r s : List α) :
    compare (u ++ r) (v ++ s) = o.then (compare r s) := by
  induction parts with
  | nil => rfl
  | cons x _ ih => rw [List.cons_append, List.cons_append, List.compare_cons_cons, ih,
      ReflOrd.compare_self, Ordering.then]
  | @part x y differ u v =>
    rw [List.cons_append, List.cons_append, List.compare_cons_cons]
    cases order : compare x y with
    | eq => exact absurd order differ
    | lt => rfl
    | gt => rfl

theorem compare_eq (parts : Parts u v o) : compare u v = o := by
  have whole := parts.compare_append [] []
  rw [List.append_nil, List.append_nil, List.compare_nil_nil] at whole
  rw [whole]
  cases o <;> rfl

theorem eq_iff (parts : Parts u v o) : u = v ↔ o = .eq := by
  constructor
  · rintro rfl
    induction u generalizing o with
    | nil =>
      cases parts
      rfl
    | cons x u ih =>
      cases parts with
      | cons _ rest => exact ih rest
      | part differ => exact absurd ReflOrd.compare_self differ
  · rintro rfl
    exact parts.eq_of_eq

/-- Of two words that part, none is a proper prefix of the other. -/
theorem eq_of_initial (parts : Parts u v o) (initial : u <+: v) : u = v := by
  induction parts with
  | nil => rfl
  | cons x _ ih => rw [ih (cons_prefix_cons.mp initial).2]
  | part differ u v =>
    obtain ⟨same, -⟩ := cons_prefix_cons.mp initial
    rw [same] at differ
    exact absurd ReflOrd.compare_self differ

end Parts

/-- A map that reverses the order of the letters reverses that of words that part. -/
theorem Parts.map_antitone {β : Type} [Ord β] {f : α → β}
    (antitone : ∀ x y, compare (f x) (f y) = (compare x y).swap) (parts : Parts u v o) :
    Parts (u.map f) (v.map f) o.swap := by
  induction parts with
  | nil => exact .nil
  | cons x _ ih => exact .cons (f x) ih
  | @part x y differ u v =>
    rw [map_cons, map_cons, ← antitone x y]
    refine .part ?_ _ _
    rw [antitone]
    cases order : compare x y with
    | eq => exact absurd order differ
    | lt => decide
    | gt => decide

theorem compare_proper [ReflOrd α] (nonempty : r ≠ []) : compare u (u ++ r) = .lt := by
  have whole := (Parts.refl u).compare_append [] r
  rw [List.append_nil] at whole
  rw [whole]
  cases r with
  | nil => exact absurd rfl nonempty
  | cons x r => rfl

/-- Two words part, or one of them is a proper prefix of the other. -/
theorem parts_or_proper [LawfulEqOrd α] (u v : List α) :
    Parts u v (compare u v) ∨ u <+: v ∧ u ≠ v ∨ v <+: u ∧ v ≠ u := by
  induction u generalizing v with
  | nil =>
    cases v with
    | nil => exact .inl .nil
    | cons y v => exact .inr (.inl ⟨ nil_prefix, by simp⟩)
  | cons x u ih =>
    cases v with
    | nil => exact .inr (.inr ⟨ nil_prefix, by simp⟩)
    | cons y v =>
      rw [List.compare_cons_cons]
      by_cases same : compare x y = .eq
      · obtain rfl := LawfulEqOrd.eq_of_compare same
        rw [same, Ordering.eq_then]
        simpa only [cons_prefix_cons, true_and, ne_eq, cons.injEq] using
          (ih v).imp_left (Parts.cons x)
      · left
        have decided : (compare x y).then (compare u v) = compare x y := by
          cases order : compare x y with
          | eq => exact absurd order same
          | lt => rfl
          | gt => rfl
        rw [decided]
        exact .part same u v

end Words

/-! ## Terminated words -/

section Terminated

variable {α : Type} [Ord α] [LawfulEqOrd α] [OrientedOrd α] {u v : List α} {z : α}

/-- A terminator below every letter keeps the order of words, and letters equal to it do too. -/
theorem compare_terminated (least : ∀ x : α, compare z x ≠ .gt) :
    compare (u ++ [z]) (v ++ [z]) = compare u v := by
  induction u generalizing v with
  | nil =>
    cases v with
    | nil => simp [ReflOrd.compare_self]
    | cons y v =>
      rw [List.nil_append, List.cons_append, List.compare_cons_cons, List.compare_nil_cons]
      cases order : compare z y with
      | lt => rfl
      | eq => cases v <;> rfl
      | gt => exact absurd order (least y)
  | cons x u ih =>
    cases v with
    | nil =>
      rw [List.nil_append, List.cons_append, List.compare_cons_cons, List.compare_cons_nil,
        OrientedOrd.eq_swap (a := x) (b := z)]
      cases order : compare z x with
      | lt => rfl
      | eq => cases u <;> rfl
      | gt => exact absurd order (least x)
    | cons y v => rw [List.cons_append, List.cons_append, List.compare_cons_cons, ih,
        List.compare_cons_cons]

end Terminated

/-! ## Bytes and numbers -/

theorem compare_uint8 (x y : UInt8) : compare x y = compare x.toNat y.toNat := by
  have unfolded : compare x y = if x < y then .lt else if x = y then .eq else .gt := rfl
  rw [unfolded, Nat.compare_eq_ite_lt]
  simp only [UInt8.lt_iff_toNat_lt, ← UInt8.toNat_inj]
  split_ifs <;> first | rfl | omega

theorem compare_digits {m n : Nat} (left : m < 256) (right : n < 256) :
    compare (UInt8.ofNat m) (UInt8.ofNat n) = compare m n := by
  rw [compare_uint8, UInt8.toNat_ofNat_of_lt' left, UInt8.toNat_ofNat_of_lt' right]

theorem toNat_complement (x : UInt8) : (x ^^^ 0xff).toNat = 255 - x.toNat := by
  have all : ∀ n < 256, n ^^^ 255 = 255 - n := by decide +kernel
  rw [UInt8.toNat_xor]
  exact all x.toNat x.toNat_lt

/-- The complement of a byte reverses the order. -/
theorem compare_complement (x y : UInt8) :
    compare (x ^^^ 0xff) (y ^^^ 0xff) = (compare x y).swap := by
  have left := x.toNat_lt
  have right := y.toNat_lt
  rw [compare_uint8, compare_uint8, toNat_complement, toNat_complement, Nat.compare_swap]
  simp only [Nat.compare_eq_ite_lt]
  split_ifs <;> first | rfl | omega

/-- The digits of a number to the base 256, most significant first. -/
def bigEndian : Nat → Nat → List UInt8
  | 0, _ => []
  | width + 1, n => bigEndian width (n / 256) ++ [UInt8.ofNat (n % 256)]

/-- Numbers of a fixed width are ordered by their digits. -/
theorem parts_bigEndian {width m n : Nat} (left : m < 256 ^ width) (right : n < 256 ^ width) :
    Parts (bigEndian width m) (bigEndian width n) (compare m n) := by
  induction width generalizing m n with
  | zero =>
    have zeros : m = 0 ∧ n = 0 := by simp at left right; omega
    rw [zeros.1, zeros.2]
    exact .nil
  | succ width ih =>
    have high := ih (m := m / 256) (n := n / 256) (by omega) (by omega)
    have low := Parts.single (UInt8.ofNat (m % 256)) (UInt8.ofNat (n % 256))
    have digits : compare m n = (compare (m / 256) (n / 256)).then
        (compare (UInt8.ofNat (m % 256)) (UInt8.ofNat (n % 256))) := by
      rw [compare_digits (Nat.mod_lt m (by decide)) (Nat.mod_lt n (by decide))]
      simp only [Nat.compare_eq_ite_lt]
      split_ifs <;> first | rfl | omega
    rw [digits]
    exact high.append low

/-! ## Signed numbers -/

theorem xor_two_pow_of_lt {n k : Nat} (small : n < 2 ^ k) : n ^^^ 2 ^ k = n + 2 ^ k := by
  have sum : n + 2 ^ k = 2 ^ k ||| n := by
    have split := Nat.two_pow_add_eq_or_of_lt small 1
    rw [Nat.mul_one] at split
    omega
  rw [sum]
  refine Nat.eq_of_testBit_eq fun i => ?_
  rw [Nat.testBit_xor, Nat.testBit_or, Nat.testBit_two_pow]
  by_cases top : k = i
  · subst top
    simp [Nat.testBit_lt_two_pow small]
  · simp [top]

/-- Flipping the highest bit adds or subtracts it. -/
theorem xor_two_pow {n k : Nat} (fits : n < 2 ^ (k + 1)) :
    n ^^^ 2 ^ k = if n < 2 ^ k then n + 2 ^ k else n - 2 ^ k := by
  split
  · next small => exact xor_two_pow_of_lt small
  · next large =>
    have low : n - 2 ^ k < 2 ^ k := by
      rw [Nat.pow_succ] at fits
      omega
    have whole : n = (n - 2 ^ k) ^^^ 2 ^ k := by
      rw [xor_two_pow_of_lt low]
      omega
    conv_lhs => rw [whole]
    rw [Nat.xor_assoc, Nat.xor_self, Nat.xor_zero]

theorem toInt_eq (n : Int64) :
    n.toInt = if n.toUInt64.toNat < 2 ^ 63 then (n.toUInt64.toNat : Int)
      else n.toUInt64.toNat - 2 ^ 64 := by
  have bits : n.toInt = n.toUInt64.toBitVec.toInt := rfl
  rw [bits, BitVec.toInt_eq_toNat_cond]
  have range := n.toUInt64.toNat_lt
  have same : n.toUInt64.toBitVec.toNat = n.toUInt64.toNat := rfl
  rw [same]
  split_ifs <;> first | rfl | omega

/-- The sign bit flipped, a signed number is shifted to an unsigned one. -/
theorem toNat_flipSign (n : Int64) :
    ((n.toUInt64 ^^^ 0x8000000000000000).toNat : Int) = n.toInt + 2 ^ 63 := by
  have range := n.toUInt64.toNat_lt
  have flipped : (n.toUInt64 ^^^ 0x8000000000000000).toNat = n.toUInt64.toNat ^^^ 2 ^ 63 :=
    UInt64.toNat_xor ..
  rw [flipped, xor_two_pow (by omega), toInt_eq]
  split_ifs <;> omega

theorem compare_int (a b : Int) :
    compare a b = if a < b then .lt else if b < a then .gt else .eq := by
  have unfolded : compare a b = if a < b then .lt else if a = b then .eq else .gt := rfl
  rw [unfolded]
  split_ifs <;> first | rfl | omega

theorem compare_int64 (a b : Int64) : compare a b = compare a.toInt b.toInt := by
  have unfolded : compare a b = if a < b then .lt else if a = b then .eq else .gt := rfl
  rw [unfolded, compare_int]
  simp only [Int64.lt_iff_toInt_lt, ← Int64.toInt_inj]
  split_ifs <;> first | rfl | omega

theorem compare_uint32 (a b : UInt32) : compare a b = compare a.toNat b.toNat := by
  have unfolded : compare a b = if a < b then .lt else if a = b then .eq else .gt := rfl
  rw [unfolded, Nat.compare_eq_ite_lt]
  simp only [UInt32.lt_iff_toNat_lt, ← UInt32.toNat_inj]
  split_ifs <;> first | rfl | omega

/-- Signed numbers in eight bytes with the sign bit flipped. -/
theorem parts_int64 (a b : Int64) :
    Parts (bigEndian 8 (a.toUInt64 ^^^ 0x8000000000000000).toNat)
      (bigEndian 8 (b.toUInt64 ^^^ 0x8000000000000000).toNat) (compare a b) := by
  have left := toNat_flipSign a
  have right := toNat_flipSign b
  have order : compare a b = compare (a.toUInt64 ^^^ 0x8000000000000000).toNat
      (b.toUInt64 ^^^ 0x8000000000000000).toNat := by
    rw [compare_int64, compare_int, Nat.compare_eq_ite_lt]
    split_ifs <;> first | rfl | omega
  rw [order]
  exact parts_bigEndian (UInt64.toNat_lt _) (UInt64.toNat_lt _)

theorem parts_uint32 (a b : UInt32) :
    Parts (bigEndian 4 a.toNat) (bigEndian 4 b.toNat) (compare a b) := by
  rw [compare_uint32]
  exact parts_bigEndian a.toNat_lt b.toNat_lt

end ByteOrder
