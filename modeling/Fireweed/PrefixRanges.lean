import Fireweed.ByteOrder

/-!
# Ranges of byte strings

The byte strings with a given prefix form a half-open range of the lexicographic
order. Its upper end is found by incrementing the last byte of the prefix that is
not 255 and dropping what follows; a prefix of 255s has no upper end.
-/

namespace PrefixRanges

open ByteOrder List Std

/-- The least byte string above all strings with the prefix, if there is one. -/
def prefixSuccessor (pre : List UInt8) : Option (List UInt8) :=
  match pre.reverse.dropWhile (· == 255) with
  | [] => none
  | byte :: rest => some ((byte + 1) :: rest).reverse

/-- A key of the half-open range from `lower` to `upper`. -/
def Within (lower upper key : List UInt8) : Prop :=
  compare lower key ≠ .gt ∧ compare key upper = .lt

instance (lower upper key : List UInt8) : Decidable (Within lower upper key) :=
  inferInstanceAs (Decidable (_ ∧ _))

theorem prefixSuccessor_cons (byte : UInt8) (pre : List UInt8) :
    prefixSuccessor (byte :: pre) =
      match prefixSuccessor pre with
      | some upper => some (byte :: upper)
      | none => if byte = 255 then none else some [byte + 1] := by
  rw [prefixSuccessor, prefixSuccessor, reverse_cons, dropWhile_append]
  cases rest : pre.reverse.dropWhile (· == 255) with
  | nil =>
    by_cases full : byte = 255
    · simp [full]
    · simp [full]
  | cons last rest => simp

/-- A string of 255s is at most its extensions only. -/
theorem le_iff_isPrefix {pre key : List UInt8} (full : prefixSuccessor pre = none) :
    compare pre key ≠ .gt ↔ pre <+: key := by
  induction pre generalizing key with
  | nil => cases key <;> simp
  | cons byte pre ih =>
    rw [prefixSuccessor_cons] at full
    cases rest : prefixSuccessor pre with
    | some upper => simp [rest] at full
    | none =>
      have all : byte = 255 := by
        by_contra other
        simp [rest, other] at full
      subst all
      cases key with
      | nil => simp
      | cons c key =>
        rw [List.compare_cons_cons, List.cons_prefix_cons, ← ih rest]
        have top := c.toNat_lt
        rw [compare_uint8, Nat.compare_eq_ite_lt, ← UInt8.toNat_inj]
        have last : (255 : UInt8).toNat = 255 := rfl
        rw [last]
        by_cases same : c.toNat = 255
        · simp [same]
        · have less : c.toNat < 255 := by omega
          have more : ¬255 < c.toNat := by omega
          simp [less, more, Ne.symm same]

/-- Below the next byte means at most this byte. -/
theorem compare_succ {x y : UInt8} (room : x ≠ 255) :
    compare y (x + 1) = .lt ↔ compare x y ≠ .lt := by
  have top := x.toNat_lt
  have below : x.toNat ≠ 255 := fun full => room (UInt8.toNat_inj.mp full)
  have next : (x + 1).toNat = x.toNat + 1 := by
    rw [UInt8.toNat_add]
    exact Nat.mod_eq_of_lt (by change x.toNat + 1 < 256; omega)
  rw [compare_uint8, compare_uint8, next, Nat.compare_eq_lt, ne_eq, Nat.compare_eq_lt]
  omega

theorem then_compare_nil (o : Ordering) (key : List UInt8) :
    o.then (compare key []) = .lt ↔ o = .lt := by
  cases key <;> cases o <;> simp [Ordering.then]

/-- The range of a prefix holds the strings that start with it. -/
theorem within_iff_isPrefix {pre upper key : List UInt8} (next : prefixSuccessor pre = some upper) :
    Within pre upper key ↔ pre <+: key := by
  induction pre generalizing key upper with
  | nil => cases next
  | cons byte pre ih =>
    rw [prefixSuccessor_cons] at next
    cases key with
    | nil => simp [Within]
    | cons c key =>
      have different : compare byte c ≠ .eq → byte ≠ c := by
        rintro apart rfl
        exact apart ReflOrd.compare_self
      rw [List.cons_prefix_cons, Within, List.compare_cons_cons]
      cases rest : prefixSuccessor pre with
      | some upper' =>
        obtain rfl : byte :: upper' = upper := by simpa [rest] using next
        rw [List.compare_cons_cons, OrientedOrd.eq_swap (a := c) (b := byte)]
        cases order : compare byte c with
        | lt => simp [Ordering.then, different (by rw [order]; decide)]
        | gt => simp [Ordering.then, different (by rw [order]; decide)]
        | eq =>
          have same : byte = c := LawfulEqOrd.eq_of_compare order
          simpa [Ordering.then, same, Within] using ih rest
      | none =>
        have room : byte ≠ 255 := by
          rintro rfl
          simp [rest] at next
        obtain rfl : [byte + 1] = upper := by simpa [rest, room] using next
        rw [List.compare_cons_cons, then_compare_nil, compare_succ room]
        cases order : compare byte c with
        | lt => simp [different (by rw [order]; decide)]
        | gt => simp [Ordering.then, different (by rw [order]; decide)]
        | eq =>
          have same : byte = c := LawfulEqOrd.eq_of_compare order
          simpa [Ordering.then, same] using le_iff_isPrefix rest

/-! ## Extensions of words that part -/

section Extensions

variable {u v upper : List UInt8} {o : Ordering}

theorem within_iff_eq (parts : Parts u v o) (next : prefixSuccessor v = some upper)
    (rest : List UInt8) : Within v upper (u ++ rest) ↔ o = .eq := by
  rw [within_iff_isPrefix next]
  constructor
  · rintro ⟨more, whole⟩
    have order := parts.compare_append rest more
    rw [whole, ReflOrd.compare_self, eq_comm, Ordering.then_eq_eq] at order
    exact order.1
  · rintro rfl
    rw [parts.eq_of_eq]
    exact prefix_append v rest

/-- An extension of `u` is below the range of `v` when `u` is below `v`. -/
theorem below_iff (parts : Parts u v o) (rest : List UInt8) :
    compare (u ++ rest) v = .lt ↔ o = .lt := by
  have whole := parts.compare_append rest []
  rw [append_nil] at whole
  rw [whole, then_compare_nil]

/-- And it is above the range of `v` when `u` is above `v`. -/
theorem above_iff (parts : Parts u v o) (next : prefixSuccessor v = some upper)
    (rest : List UInt8) : compare (u ++ rest) upper ≠ .lt ↔ o = .gt := by
  have ends : compare v upper = .lt := ((within_iff_isPrefix next).mpr prefix_rfl).2
  cases o with
  | lt =>
    have below := (below_iff parts rest).mpr rfl
    simp [TransCmp.lt_trans below ends]
  | eq => simp [((within_iff_eq parts next rest).mpr rfl).2]
  | gt =>
    simp only [iff_true]
    intro inside
    have within : Within v upper (u ++ rest) := by
      refine ⟨?_, inside⟩
      have whole := parts.compare_append rest []
      rw [append_nil] at whole
      rw [OrientedOrd.eq_swap (a := v), whole]
      simp [Ordering.then]
    exact absurd ((within_iff_eq parts next rest).mp within) (by decide)

end Extensions

end PrefixRanges
