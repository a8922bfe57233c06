import Fireweed.Postcard.Unambiguous
import Fireweed.Utf8

/-!
# Reading the postcard format

A reader takes a value from the front of the bytes and leaves the rest. Each
reader takes back what its writer put there, whatever follows it.
-/

namespace Postcard

/-- A reader of values at the front of the bytes. -/
abbrev Reader (α : Type) := List UInt8 → Option (α × List UInt8)

/-- Up to `width` groups of seven bits; the last of them all is at most `last`. -/
def takeVarint (last : Nat) : Nat → Reader Nat
  | 0, _ => none
  | _ + 1, [] => none
  | width + 1, byte :: rest =>
    if byte.toNat < 128 then
      if width = 0 ∧ last < byte.toNat then none else some (byte.toNat, rest)
    else (takeVarint last width rest).map fun taken => (byte.toNat % 128 + 128 * taken.1, taken.2)

/-- A 64-bit number has ten groups, and one bit in the tenth. -/
def takeU64 : Reader Nat := takeVarint 1 10

/-- A 32-bit number has five groups, and four bits in the fifth. -/
def takeU32 : Reader Nat := takeVarint 15 5

def unzigzag (n : Nat) : Int := if n % 2 = 0 then n / 2 else -((n / 2 : Nat) : Int) - 1

def takeI64 : Reader Int64 := fun bytes =>
  (takeU64 bytes).map fun taken => (Int64.ofInt (unzigzag taken.1), taken.2)

def takeBytes (n : Nat) : Reader (List UInt8) := fun bytes =>
  if n ≤ bytes.length then some (bytes.take n, bytes.drop n) else none

/-- The number with these little-endian bytes. -/
def ofLeBytes : List UInt8 → Nat
  | [] => 0
  | byte :: rest => byte.toNat + 256 * ofLeBytes rest

def takeBool : Reader Bool
  | [] => none
  | byte :: rest =>
    if byte = 0 then some (false, rest) else if byte = 1 then some (true, rest) else none

/-- A length and that many bytes. -/
def takeSlice : Reader (List UInt8) := fun bytes =>
  (takeU64 bytes).bind fun taken => takeBytes taken.1 taken.2

def takeStr : Reader String := fun bytes =>
  (takeSlice bytes).bind fun taken => (Utf8.fromUtf8 taken.1).map fun text => (text, taken.2)

/-! ## Reading back -/

theorem takeVarint_varintWithin {last width n : Nat} (small : last < 128)
    (bound : n < 128 ^ width * (last + 1)) (rest : List UInt8) :
    takeVarint last (width + 1) (varintWithin (width + 1) n ++ rest) = some (n, rest) := by
  have byte : ∀ {m : Nat}, m < 256 → (UInt8.ofNat m).toNat = m := UInt8.toNat_ofNat_of_lt'
  induction width generalizing n with
  | zero =>
    rw [pow_zero, one_mul] at bound
    rw [varintWithin, if_pos (by omega), List.singleton_append, takeVarint, byte (by omega),
      if_pos (by omega), if_neg (by omega)]
  | succ width ih =>
    rw [varintWithin]
    split
    · next low =>
      rw [List.singleton_append, takeVarint, byte (by omega), if_pos low, if_neg (by omega)]
    · next high =>
      have quotient : n / 128 < 128 ^ width * (last + 1) := by
        apply Nat.div_lt_of_lt_mul
        rw [← mul_assoc, ← pow_succ']
        exact bound
      rw [List.cons_append, takeVarint, byte (by omega), if_neg (by omega), ih quotient]
      have whole : (n % 128 + 128) % 128 + 128 * (n / 128) = n := by omega
      simp only [Option.map_some, whole]

theorem takeU64_varint {n : Nat} (bound : n < 2 ^ 64) (rest : List UInt8) :
    takeU64 (varint n ++ rest) = some (n, rest) :=
  takeVarint_varintWithin (by decide) (by simpa using bound) rest

/-- An ordinal has one group. -/
theorem takeU32_varint {n : Nat} (bound : n < 128) (rest : List UInt8) :
    takeU32 (varint n ++ rest) = some (n, rest) := by
  rw [varint, varintWithin, if_pos bound, List.singleton_append, takeU32, takeVarint,
    UInt8.toNat_ofNat_of_lt' (show n < 256 by omega), if_pos bound, if_neg (by omega)]

theorem unzigzag_zigzag (n : Int) : unzigzag (zigzag n) = n := by
  rw [unzigzag, zigzag]
  split_ifs <;> omega

theorem takeI64_serialize (n : Int64) (rest : List UInt8) :
    takeI64 (serialize n ++ rest) = some (n, rest) := by
  rw [takeI64]
  change (takeU64 (varint (zigzag n.toInt) ++ rest)).map _ = _
  rw [takeU64_varint (zigzag_lt n), Option.map_some, unzigzag_zigzag, Int64.ofInt_toInt]

theorem takeBytes_append (bytes rest : List UInt8) :
    takeBytes bytes.length (bytes ++ rest) = some (bytes, rest) := by
  simp [takeBytes]

theorem ofLeBytes_leBytes {width n : Nat} (bound : n < 256 ^ width) :
    ofLeBytes (leBytes width n) = n := by
  induction width generalizing n with
  | zero =>
    rw [pow_zero] at bound
    rw [leBytes, ofLeBytes]
    omega
  | succ width ih =>
    have quotient : n / 256 < 256 ^ width := by
      apply Nat.div_lt_of_lt_mul
      rwa [← pow_succ']
    rw [leBytes, ofLeBytes, ih quotient, UInt8.toNat_ofNat_of_lt' (show n % 256 < 256 by omega)]
    omega

theorem takeBool_serialize (b : Bool) (rest : List UInt8) :
    takeBool (serialize b ++ rest) = some (b, rest) := by
  cases b <;> rfl

theorem takeSlice_append {bytes : List UInt8} (bound : bytes.length < 2 ^ 64) (rest : List UInt8) :
    takeSlice (varint bytes.length ++ bytes ++ rest) = some (bytes, rest) := by
  rw [takeSlice, List.append_assoc, takeU64_varint bound, Option.bind_some, takeBytes_append]

theorem takeStr_serialize {s : String} (bound : s.toUTF8.size < 2 ^ 64) (rest : List UInt8) :
    takeStr (serialize s ++ rest) = some (s, rest) := by
  have sized : s.toUTF8.data.toList.length < 2 ^ 64 := bound
  change (takeSlice (varint s.toUTF8.data.toList.length ++ s.toUTF8.data.toList ++ rest)).bind _ = _
  rw [takeSlice_append sized, Option.bind_some, Utf8.fromUtf8_eq_some.mpr rfl, Option.map_some]

end Postcard
