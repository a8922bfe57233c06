import Fireweed.Checked

/-!
# Postcard encoding

The wire format of the `postcard` serializer: LEB128 varints for unsigned
integers and lengths, zigzag varints for signed integers, one byte for a boolean
or an option tag, length-prefixed strings and sequences, and the fields of a
structure back to back.
-/

namespace Postcard

open BTree Std

/-- At most `width` LEB128 groups, least significant first. -/
def varintWithin : Nat → Nat → List UInt8
  | 0, _ => []
  | width + 1, n =>
    if n < 128 then [UInt8.ofNat n] else UInt8.ofNat (n % 128 + 128) :: varintWithin width (n / 128)

/-- A 64-bit unsigned varint takes at most ten bytes. -/
def varint (n : Nat) : List UInt8 := varintWithin 10 n

/-- Sign folded into the least significant bit. -/
def zigzag (n : Int) : Nat := if 0 ≤ n then 2 * n.toNat else 2 * (-n).toNat - 1

/-- The little-endian bytes of the low `width` bytes of a number. -/
def leBytes : Nat → Nat → List UInt8
  | 0, _ => []
  | width + 1, n => UInt8.ofNat (n % 256) :: leBytes width (n / 256)

theorem leBytes_length (width n : Nat) : (leBytes width n).length = width := by
  induction width generalizing n with
  | zero => rfl
  | succ width ih => simp [leBytes, ih]

class Serialize (α : Type) where
  serialize : α → List UInt8

export Serialize (serialize)

instance : Serialize UInt64 := ⟨fun n => varint n.toNat⟩

instance : Serialize UInt32 := ⟨fun n => varint n.toNat⟩

instance : Serialize Int64 := ⟨fun n => varint (zigzag n.toInt)⟩

instance : Serialize Bool := ⟨fun b => [if b then 1 else 0]⟩

instance : Serialize String :=
  ⟨fun s => varint s.toUTF8.size ++ s.toUTF8.data.toList⟩

/-- A byte serializes as itself, so a byte vector is its length and its bytes. -/
instance : Serialize UInt8 := ⟨fun b => [b]⟩

instance {α : Type} [Serialize α] : Serialize (Option α) :=
  ⟨fun
    | none => [0]
    | some a => 1 :: serialize a⟩

instance {α : Type} [Serialize α] : Serialize (List α) :=
  ⟨fun l => varint l.length ++ l.flatMap serialize⟩

instance {α β : Type} [Serialize α] [Serialize β] : Serialize (α × β) :=
  ⟨fun pair => serialize pair.1 ++ serialize pair.2⟩

instance {κ ν : Type} [Ord κ] [TransOrd κ] [Serialize κ] [Serialize ν] :
    Serialize (BTreeMap κ ν) :=
  ⟨fun m => serialize m.toList⟩

instance {κ : Type} [Ord κ] [TransOrd κ] [Serialize κ] : Serialize (BTreeSet κ) :=
  ⟨fun s => serialize s.toList⟩

def variant (ordinal : Nat) (payload : List UInt8) : List UInt8 := varint ordinal ++ payload

/-! ## Encoded lengths -/

theorem varintWithin_length_le (width n : Nat) : (varintWithin width n).length ≤ width := by
  induction width generalizing n with
  | zero => exact Nat.le_refl _
  | succ width ih =>
    rw [varintWithin]
    split
    · simp
    · have := ih (n / 128)
      rw [List.length_cons]
      omega

theorem varint_length_le (n : Nat) : (varint n).length ≤ 10 := varintWithin_length_le 10 n

/-- Every further byte of a varint multiplies its range by 128. -/
theorem varintWithin_length_of_lt {width groups n : Nat} (small : n < 128 ^ (groups + 1)) :
    (varintWithin width n).length ≤ groups + 1 := by
  induction width generalizing groups n with
  | zero => simp [varintWithin]
  | succ width ih =>
    rw [varintWithin]
    split
    · simp
    · next large =>
      cases groups with
      | zero =>
        rw [Nat.zero_add, Nat.pow_one] at small
        exact absurd small large
      | succ groups =>
        have quotient : n / 128 < 128 ^ (groups + 1) := by
          apply Nat.div_lt_of_lt_mul
          rw [Nat.mul_comm, ← Nat.pow_succ]
          exact small
        have := ih quotient
        rw [List.length_cons]
        omega

theorem serialize_string_length (s : String) :
    (serialize s).length = (varint s.toUTF8.size).length + s.toUTF8.size := by
  change (varint s.toUTF8.size ++ s.toUTF8.data.toList).length = _
  rw [List.length_append, Array.length_toList]
  rfl

/-- The encoding of a sequence is as long as its length prefix and its elements. -/
theorem serialize_list_length {α : Type} [Serialize α] (l : List α) :
    (serialize l).length =
      (varint l.length).length + (l.map fun a => (serialize a).length).sum := by
  change (varint l.length ++ l.flatMap serialize).length = _
  rw [List.length_append, List.length_flatMap]

end Postcard
