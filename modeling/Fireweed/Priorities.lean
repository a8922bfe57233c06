import Fireweed.ByteOrder
import Mathlib.Algebra.Order.Field.Power
import Mathlib.Data.Nat.Cast.Field
import Mathlib.Data.Nat.Cast.Order.Field
import Mathlib.Algebra.Order.Field.Rat
import Mathlib.Tactic.FieldSimp
import Mathlib.Tactic.Linarith
import Mathlib.Tactic.Positivity
import Mathlib.Tactic.Ring

/-!
# Sort keys of priorities

Priority values and the bytes they are sorted by. A decimal is written with its
sign, its decimal exponent and its first 38 digits. The order of the keys is the
order of the values for exactly the pairs that these fields tell apart: exponents
below `-2 ^ 31` are wrapped, mantissas of 39 digits lose the last one, and in
descending order a text key can begin with the key of a shorter text.
-/

namespace Domain

open ByteOrder Int32

/-! ## Values -/

/-- A decimal number `mantissa / 10 ^ scale` with an `i128` mantissa. -/
structure DecimalValue where
  mantissa : Int
  scale : UInt32
  lower : -2 ^ 127 ≤ mantissa := by decide
  upper : mantissa < 2 ^ 127 := by decide
deriving DecidableEq

def DecimalValue.value (d : DecimalValue) : ℚ := d.mantissa / 10 ^ d.scale.toNat

/-- The fields of a timestamp are read as they are stored, whether or not the nanoseconds are
below one second. -/
inductive PriorityValue where
  | timestamp (seconds : Int64) (nanoseconds : UInt32)
  | int64 (n : Int64)
  | decimal (d : DecimalValue)
  | text (s : String)
deriving DecidableEq

inductive PriorityDirection where
  | ascending
  | descending
deriving DecidableEq, Repr

def utf8 (s : String) : List UInt8 := s.toUTF8.data.toList

def PriorityValue.order : PriorityValue → PriorityValue → Option Ordering
  | timestamp s n, timestamp s' n' => some ((compare s s').then (compare n n'))
  | int64 m, int64 n => some (compare m n)
  | decimal d, decimal e => some (compare d.value e.value)
  | text s, text t => some (compare (utf8 s) (utf8 t))
  | _, _ => none

/-! ## Keys -/

/-- The loop of the digit count; a `u128` has at most 39 digits. -/
def countDigits : Nat → Nat → Nat → Nat
  | 0, _, count => count
  | fuel + 1, n, count => if n = 0 then count else countDigits fuel (n / 10) (count + 1)

def decimalDigitCount (n : Nat) : Nat := if n = 0 then 1 else countDigits 39 n 0

def normalizedDigits : Nat := 38

/-- The casts of the source: the scale is reinterpreted as signed, and the exponent is shifted
and cut to 32 bits. -/
def biasedExponent (digits : Nat) (scale : UInt32) : UInt32 :=
  let effectiveExp : Int32 := Int32.ofNat digits - 1 - scale.toInt32
  (effectiveExp.toInt64 + 0x80000000).toUInt64.toUInt32

def fractional (n digits : Nat) : Nat :=
  if digits ≥ normalizedDigits then n / 10 ^ (digits - normalizedDigits)
  else n * 10 ^ (normalizedDigits - digits)

def encodeDecimalAscending (mantissa : Int) (scale : UInt32) : List UInt8 :=
  if mantissa = 0 then 0x80 :: List.replicate 20 0
  else
    let digits := decimalDigitCount mantissa.natAbs
    let biasedExp := biasedExponent digits scale
    let fraction := fractional mantissa.natAbs digits
    if mantissa > 0 then 0xc0 :: (bigEndian 4 biasedExp.toNat ++ bigEndian 16 fraction)
    else 0x40 :: (bigEndian 4 (~~~biasedExp).toNat ++ bigEndian 16 (2 ^ 128 - 1 - fraction))

def encodePriorityAscending : PriorityValue → List UInt8
  | .timestamp seconds nanoseconds =>
    bigEndian 8 (seconds.toUInt64 ^^^ 0x8000000000000000).toNat ++ bigEndian 4 nanoseconds.toNat
  | .int64 n => bigEndian 8 (n.toUInt64 ^^^ 0x8000000000000000).toNat
  | .decimal d => encodeDecimalAscending d.mantissa d.scale
  | .text s => utf8 s ++ [0]

def prioritySort (value : PriorityValue) : PriorityDirection → List UInt8
  | .ascending => encodePriorityAscending value
  | .descending => (encodePriorityAscending value).map (· ^^^ 0xff)

/-! ## Digits -/

theorem countDigits_bounds (fuel n count : Nat) (positive : 0 < n) (enough : n < 10 ^ fuel) :
    ∃ d, countDigits fuel n count = count + d ∧ 0 < d ∧ d ≤ fuel ∧ 10 ^ (d - 1) ≤ n ∧
      n < 10 ^ d := by
  induction fuel generalizing n count with
  | zero => omega
  | succ fuel ih =>
    rw [countDigits, if_neg (by omega)]
    by_cases last : n / 10 = 0
    · refine ⟨1, ?_, by omega, by omega, by omega, by omega⟩
      rw [last]
      cases fuel <;> rfl
    · obtain ⟨d, counted, some_, few, lower, upper⟩ :=
        ih (n / 10) (count + 1) (by omega) (by rw [Nat.pow_succ] at enough; omega)
      refine ⟨d + 1, by omega, by omega, by omega, ?_, ?_⟩
      · have split : 10 ^ (d + 1 - 1) = 10 ^ (d - 1) * 10 := by
          rw [← Nat.pow_succ]
          congr 1
          omega
        omega
      · rw [Nat.pow_succ]
        omega

theorem decimalDigitCount_bounds {n : Nat} (positive : 0 < n) (small : n < 10 ^ 39) :
    0 < decimalDigitCount n ∧ decimalDigitCount n ≤ 39 ∧
      10 ^ (decimalDigitCount n - 1) ≤ n ∧ n < 10 ^ decimalDigitCount n := by
  obtain ⟨d, counted, bounds⟩ := countDigits_bounds 39 n 0 positive small
  have count : decimalDigitCount n = d := by
    rw [decimalDigitCount, if_neg (by omega), counted]
    omega
  rw [count]
  exact bounds

/-- The kept digits are the quotient by the digits that do not fit. -/
theorem fractional_eq {n digits : Nat} : fractional n digits = n * 10 ^ 38 / 10 ^ digits := by
  unfold fractional normalizedDigits
  split
  · next many =>
    obtain ⟨extra, rfl⟩ := Nat.exists_eq_add_of_le many
    rw [Nat.add_sub_cancel_left, Nat.pow_add, Nat.mul_comm n,
      Nat.mul_div_mul_left _ _ (by positivity)]
  · next few =>
    obtain ⟨missing, total⟩ := Nat.exists_eq_add_of_le (Nat.le_of_not_le few)
    rw [total, Nat.add_sub_cancel_left, Nat.pow_add, Nat.mul_comm (10 ^ digits), ← Nat.mul_assoc,
      Nat.mul_div_cancel _ (by positivity)]

theorem toInt_toInt32 (scale : UInt32) :
    scale.toInt32.toInt = if scale.toNat < 2 ^ 31 then (scale.toNat : Int)
      else scale.toNat - 2 ^ 32 := by
  have bits : scale.toInt32.toInt = scale.toBitVec.toInt := rfl
  have same : scale.toBitVec.toNat = scale.toNat := rfl
  rw [bits, BitVec.toInt_eq_toNat_cond, same]
  split_ifs <;> omega

/-- An exponent as 32 bits hold it. -/
def wrapped (e : Int) : Int := if e < -2 ^ 31 then e + 2 ^ 32 else e

/-- The exponent field is the wrapped exponent plus `2 ^ 31`. -/
theorem biasedExponent_eq {digits : Nat} {scale : UInt32} (some_ : 0 < digits)
    (few : digits ≤ 39) :
    ((biasedExponent digits scale).toNat : Int) = wrapped (digits - 1 - scale.toNat) + 2 ^ 31 := by
  have range := scale.toNat_lt
  have count : (ofNat digits).toInt = digits :=
    toInt_ofNat_of_lt (by omega)
  have less : (ofNat digits - 1).toInt = digits - 1 := by
    have one : (1 : Int32).toInt = 1 := rfl
    rw [toInt_sub, count, one]
    exact Int.bmod_eq_of_le (by omega) (by omega)
  have effective : (ofNat digits - 1 - scale.toInt32).toInt =
      wrapped (digits - 1 - scale.toNat) := by
    rw [toInt_sub, less, toInt_toInt32, wrapped, Int.bmod_def]
    split_ifs <;> omega
  have shifted : ((ofNat digits - 1 - scale.toInt32).toInt64 + 0x80000000).toInt =
      wrapped (digits - 1 - scale.toNat) + 2 ^ 31 := by
    have bias : (0x80000000 : Int64).toInt = 2 ^ 31 := rfl
    rw [Int64.toInt_add, toInt_toInt64, effective, bias, wrapped]
    refine Int.bmod_eq_of_le ?_ ?_ <;> split_ifs <;> omega
  have unsigned := toInt_eq ((ofNat digits - 1 - scale.toInt32).toInt64 + 0x80000000)
  rw [shifted] at unsigned
  rw [biasedExponent, UInt64.toNat_toUInt32]
  unfold wrapped at unsigned ⊢
  split_ifs at unsigned ⊢ <;> omega

/-! ## Leading digits -/

/-- `v` has the decimal exponent `e` and the first 38 digits `f`. -/
structure Leads (v : ℚ) (e : ℤ) (f : ℕ) : Prop where
  lower : (10 : ℚ) ^ e ≤ v
  upper : v < (10 : ℚ) ^ (e + 1)
  floor_le : (f : ℚ) ≤ v * 10 ^ (37 - e)
  lt_floor : v * 10 ^ (37 - e) < f + 1

/-- The digits are all of the value. -/
def Whole (v : ℚ) (e : ℤ) (f : ℕ) : Prop := (f : ℚ) = v * 10 ^ (37 - e)

namespace Leads

variable {v w : ℚ} {e e' : ℤ} {f f' : ℕ}

theorem digits_lt (leads : Leads v e f) : f < 256 ^ 16 := by
  have bound : v * 10 ^ (37 - e) < (10 : ℚ) ^ (38 : ℤ) := by
    calc v * 10 ^ (37 - e) < 10 ^ (e + 1) * 10 ^ (37 - e) := by
          exact mul_lt_mul_of_pos_right leads.upper (zpow_pos (by norm_num) _)
      _ = (10 : ℚ) ^ (38 : ℤ) := by
          rw [← zpow_add₀ (by norm_num)]
          congr 1
          ring
  have small : (f : ℚ) < ((10 ^ 38 : ℕ) : ℚ) := by
    push_cast
    exact lt_of_le_of_lt leads.floor_le bound
  have digits : f < 10 ^ 38 := by exact_mod_cast small
  omega

theorem lt_of_exponent_lt (left : Leads v e f) (right : Leads w e' f') (less : e < e') : v < w :=
  calc v < (10 : ℚ) ^ (e + 1) := left.upper
    _ ≤ (10 : ℚ) ^ e' := zpow_le_zpow_right₀ (by norm_num) (by omega)
    _ ≤ w := right.lower

theorem lt_of_digits_lt (left : Leads v e f) (right : Leads w e f') (less : f < f') : v < w := by
  have positive : (0 : ℚ) < 10 ^ (37 - e) := zpow_pos (by norm_num) _
  have next : (f : ℚ) + 1 ≤ f' := by exact_mod_cast less
  have scaled : v * 10 ^ (37 - e) < w * 10 ^ (37 - e) :=
    calc v * 10 ^ (37 - e) < f + 1 := left.lt_floor
      _ ≤ f' := next
      _ ≤ w * 10 ^ (37 - e) := right.floor_le
  exact lt_of_mul_lt_mul_right scaled positive.le

/-- The exponent and the digits are those of the value. -/
theorem unique (left : Leads v e f) (right : Leads v e' f') : e = e' ∧ f = f' := by
  rcases lt_trichotomy e e' with less | rfl | more
  · exact absurd (left.lt_of_exponent_lt right less) (lt_irrefl v)
  · rcases lt_trichotomy f f' with less | same | more
    · exact absurd (left.lt_of_digits_lt right less) (lt_irrefl v)
    · exact ⟨rfl, same⟩
    · exact absurd (right.lt_of_digits_lt left more) (lt_irrefl v)
  · exact absurd (right.lt_of_exponent_lt left more) (lt_irrefl v)

/-- What a field for the exponent must keep, for it and the digits to be in the order of the
values. -/
theorem compare_then_iff (left : Leads v e f) (right : Leads w e' f') (field : ℤ → ℤ) :
    (compare (field e) (field e')).then (compare f f') = compare v w ↔
      (e < e' → field e < field e' ∨ field e = field e' ∧ f < f') ∧
      (e' < e → field e' < field e ∨ field e' = field e ∧ f' < f) ∧
      (e = e' → f = f' → v = w) := by
  rcases lt_trichotomy e e' with less | rfl | more
  · rw [compare_lt_iff_lt.mpr (left.lt_of_exponent_lt right less), Ordering.then_eq_lt,
      compare_lt_iff_lt, compare_eq_iff_eq, compare_lt_iff_lt]
    exact ⟨fun order => ⟨fun _ => order, fun more => by omega, fun same => by omega⟩,
      fun order => order.1 less⟩
  · rw [compare_eq_iff_eq.mpr (rfl : field e = field e), Ordering.eq_then]
    rcases lt_trichotomy f f' with less | rfl | more
    · rw [compare_lt_iff_lt.mpr (left.lt_of_digits_lt right less), compare_lt_iff_lt]
      exact iff_of_true less ⟨fun less => by omega, fun less => by omega, fun _ same => by omega⟩
    · rw [compare_eq_iff_eq.mpr (rfl : f = f), eq_comm, compare_eq_iff_eq]
      exact ⟨fun same => ⟨fun less => by omega, fun less => by omega, fun _ _ => same⟩,
        fun order => order.2.2 rfl rfl⟩
    · rw [compare_gt_iff_gt.mpr (right.lt_of_digits_lt left more), compare_gt_iff_gt]
      exact iff_of_true more ⟨fun less => by omega, fun less => by omega, fun _ same => by omega⟩
  · rw [compare_gt_iff_gt.mpr (right.lt_of_exponent_lt left more), Ordering.then_eq_gt,
      compare_gt_iff_gt, compare_eq_iff_eq, compare_gt_iff_gt, eq_comm]
    exact ⟨fun order => ⟨fun less => by omega, fun _ => order, fun same => by omega⟩,
      fun order => order.2.1 more⟩

end Leads

theorem shift_digits (n d s : ℕ) :
    (n : ℚ) / 10 ^ s * 10 ^ (37 - ((d : ℤ) - 1 - s)) =
      ((n * 10 ^ 38 : ℕ) : ℚ) / ((10 ^ d : ℕ) : ℚ) := by
  have ten : (10 : ℚ) ≠ 0 := by norm_num
  have exponent : (37 - ((d : ℤ) - 1 - s)) = 38 + s - d := by ring
  rw [exponent, zpow_sub₀ ten, zpow_add₀ ten, zpow_natCast, zpow_natCast]
  push_cast
  field_simp

/-- The digits of a positive number over a power of ten. -/
theorem leads_of_digits {n d s : ℕ} (some_ : 0 < d) (lower : 10 ^ (d - 1) ≤ n)
    (upper : n < 10 ^ d) : Leads (n / 10 ^ s) (d - 1 - s) (n * 10 ^ 38 / 10 ^ d) := by
  have ten : (10 : ℚ) ≠ 0 := by norm_num
  have positive : (0 : ℚ) < ((10 ^ d : ℕ) : ℚ) := by positivity
  refine ⟨?_, ?_, ?_, ?_⟩
  · have power : (10 : ℚ) ^ ((d : ℤ) - 1 - s) = (10 ^ (d - 1) : ℕ) / 10 ^ s := by
      have whole : (d : ℤ) - 1 = ((d - 1 : ℕ) : ℤ) := by omega
      rw [whole, zpow_sub₀ ten, zpow_natCast, zpow_natCast]
      push_cast
      rfl
    rw [power]
    gcongr
  · have power : (10 : ℚ) ^ ((d : ℤ) - 1 - s + 1) = (10 ^ d : ℕ) / 10 ^ s := by
      have whole : (d : ℤ) - 1 - s + 1 = d - s := by ring
      rw [whole, zpow_sub₀ ten, zpow_natCast, zpow_natCast]
      push_cast
      rfl
    rw [power]
    gcongr
  · rw [shift_digits]
    exact Nat.cast_div_le
  · rw [shift_digits, div_lt_iff₀ positive]
    have bound : n * 10 ^ 38 < (n * 10 ^ 38 / 10 ^ d + 1) * 10 ^ d := by
      rw [Nat.mul_comm (_ + 1)]
      exact Nat.lt_mul_div_succ _ (by positivity)
    exact_mod_cast bound

theorem whole_of_digits {n d s : ℕ} (divides : 10 ^ d ∣ n * 10 ^ 38) :
    Whole (n / 10 ^ s) (d - 1 - s) (n * 10 ^ 38 / 10 ^ d) := by
  rw [Whole, shift_digits, Nat.cast_div divides (by positivity)]

/-! ## The order of decimals -/

variable {d d' : DecimalValue}

namespace DecimalValue

def magnitude (d : DecimalValue) : ℚ := d.mantissa.natAbs / 10 ^ d.scale.toNat

/-- The decimal exponent of the first digit. -/
def exponent (d : DecimalValue) : ℤ :=
  decimalDigitCount d.mantissa.natAbs - 1 - d.scale.toNat

/-- The first 38 digits. -/
def digits (d : DecimalValue) : ℕ :=
  fractional d.mantissa.natAbs (decimalDigitCount d.mantissa.natAbs)

/-- The exponent fields of `d` and `e`, or else their digits, are ascending. -/
def Below (d e : DecimalValue) : Prop :=
  wrapped d.exponent < wrapped e.exponent ∨
    wrapped d.exponent = wrapped e.exponent ∧ d.digits < e.digits

/-- The fields tell two decimals of one sign apart as their magnitudes do: wrapping does not turn
different exponents around, and cutting does not merge different digits. -/
structure Separated (d e : DecimalValue) : Prop where
  below : d.exponent < e.exponent → d.Below e
  above : e.exponent < d.exponent → e.Below d
  within : d.exponent = e.exponent → d.digits = e.digits → d.magnitude = e.magnitude

def SameSign (d e : DecimalValue) : Prop :=
  d.mantissa < 0 ∧ e.mantissa < 0 ∨ 0 < d.mantissa ∧ 0 < e.mantissa

/-- The exponent is not wrapped, and no digit is cut: a mantissa of 39 digits ends in zero. -/
def Exact (d : DecimalValue) : Prop :=
  d.mantissa = 0 ∨ d.scale.toNat < 2 ^ 31 ∧ (d.mantissa.natAbs < 10 ^ 38 ∨ 10 ∣ d.mantissa)

theorem value_eq_magnitude (positive : 0 < d.mantissa) : d.value = d.magnitude := by
  have abs : (d.mantissa.natAbs : ℤ) = d.mantissa := by omega
  rw [value, magnitude, ← Int.cast_natCast (R := ℚ), abs]

theorem value_eq_neg_magnitude (negative : d.mantissa < 0) : d.value = -d.magnitude := by
  have abs : (d.mantissa.natAbs : ℤ) = -d.mantissa := by omega
  rw [value, magnitude, ← Int.cast_natCast (R := ℚ), abs]
  push_cast
  ring

theorem digitCount_bounds (nonzero : d.mantissa ≠ 0) :
    0 < decimalDigitCount d.mantissa.natAbs ∧ decimalDigitCount d.mantissa.natAbs ≤ 39 ∧
      10 ^ (decimalDigitCount d.mantissa.natAbs - 1) ≤ d.mantissa.natAbs ∧
      d.mantissa.natAbs < 10 ^ decimalDigitCount d.mantissa.natAbs := by
  have lower := d.lower
  have upper := d.upper
  exact decimalDigitCount_bounds (by omega) (by omega)

theorem leads (nonzero : d.mantissa ≠ 0) : Leads d.magnitude d.exponent d.digits := by
  obtain ⟨some_, -, lower, upper⟩ := digitCount_bounds nonzero
  rw [digits, fractional_eq]
  exact leads_of_digits some_ lower upper

theorem whole (nonzero : d.mantissa ≠ 0) (exact : d.Exact) :
    Whole d.magnitude d.exponent d.digits := by
  obtain ⟨-, few, lower, -⟩ := digitCount_bounds nonzero
  rw [digits, fractional_eq]
  refine whole_of_digits ?_
  by_cases most : decimalDigitCount d.mantissa.natAbs ≤ 38
  · exact Dvd.dvd.mul_left (Nat.pow_dvd_pow 10 most) _
  · have all : decimalDigitCount d.mantissa.natAbs = 39 := by omega
    rw [all] at lower ⊢
    have ends : 10 ∣ d.mantissa.natAbs := by
      rcases exact with zero | ⟨-, less | ends⟩
      · exact absurd zero nonzero
      · omega
      · omega
    rw [Nat.pow_succ, Nat.mul_comm]
    exact Nat.mul_dvd_mul_right ends _

/-- Below the scale `2 ^ 31` the exponent is not wrapped. -/
theorem wrapped_exponent (nonzero : d.mantissa ≠ 0) (exact : d.Exact) :
    wrapped d.exponent = d.exponent := by
  have small := (exact.resolve_left nonzero).1
  have some_ := (digitCount_bounds nonzero).1
  rw [wrapped, if_neg]
  rw [exponent]
  omega

theorem Exact.separated {e : DecimalValue} (exact : d.Exact) (exact' : e.Exact)
    (signs : d.SameSign e) : d.Separated e := by
  have nonzero : d.mantissa ≠ 0 := by rcases signs with signs | signs <;> omega
  have nonzero' : e.mantissa ≠ 0 := by rcases signs with signs | signs <;> omega
  refine ⟨fun less => .inl ?_, fun more => .inl ?_, fun exponents digits => ?_⟩
  · rwa [wrapped_exponent nonzero exact, wrapped_exponent nonzero' exact']
  · rwa [wrapped_exponent nonzero exact, wrapped_exponent nonzero' exact']
  · have left : (d.digits : ℚ) = d.magnitude * 10 ^ (37 - d.exponent) := whole nonzero exact
    have right : (e.digits : ℚ) = e.magnitude * 10 ^ (37 - e.exponent) := whole nonzero' exact'
    rw [← exponents, ← digits, left] at right
    exact mul_right_cancel₀ (zpow_ne_zero _ (by norm_num)) right

theorem compare_sub {m n k : Nat} (left : m ≤ k) (right : n ≤ k) :
    compare (k - m) (k - n) = (compare m n).swap := by
  rw [Nat.compare_swap, Nat.compare_eq_ite_lt, Nat.compare_eq_ite_lt]
  split_ifs <;> first | rfl | omega

section Pairs

variable {d d' : DecimalValue} (nonzero : d.mantissa ≠ 0) (nonzero' : d'.mantissa ≠ 0)

def biased (d : DecimalValue) : UInt32 :=
  biasedExponent (decimalDigitCount d.mantissa.natAbs) d.scale

include nonzero in
theorem toNat_biased : (d.biased.toNat : Int) = wrapped d.exponent + 2 ^ 31 := by
  obtain ⟨some_, few, -⟩ := digitCount_bounds nonzero
  exact biasedExponent_eq some_ few

/-- How the fields of two decimals compare. -/
def compareFields (d d' : DecimalValue) : Ordering :=
  (compare (wrapped d.exponent) (wrapped d'.exponent)).then (compare d.digits d'.digits)

include nonzero nonzero'

theorem compareFields_iff :
    compareFields d d' = compare d.magnitude d'.magnitude ↔ d.Separated d' := by
  rw [compareFields, (leads nonzero).compare_then_iff (leads nonzero') wrapped]
  exact ⟨fun ⟨below, above, within⟩ => ⟨below, above, within⟩,
    fun ⟨below, above, within⟩ => ⟨below, above, within⟩⟩

theorem compare_biased :
    compare d.biased.toNat d'.biased.toNat =
      compare (wrapped d.exponent) (wrapped d'.exponent) := by
  have first := toNat_biased nonzero
  have second := toNat_biased nonzero'
  rw [compare_int, Nat.compare_eq_ite_lt]
  split_ifs <;> first | rfl | omega

theorem parts_fields :
    Parts (bigEndian 4 d.biased.toNat ++ bigEndian 16 d.digits)
      (bigEndian 4 d'.biased.toNat ++ bigEndian 16 d'.digits) (compareFields d d') := by
  rw [compareFields, ← compare_biased nonzero nonzero']
  exact (parts_bigEndian d.biased.toNat_lt d'.biased.toNat_lt).append
    (parts_bigEndian (leads nonzero).digits_lt (leads nonzero').digits_lt)

/-- The complemented fields are in the reverse order. -/
theorem parts_complement :
    Parts (bigEndian 4 (~~~d.biased).toNat ++ bigEndian 16 (2 ^ 128 - 1 - d.digits))
      (bigEndian 4 (~~~d'.biased).toNat ++ bigEndian 16 (2 ^ 128 - 1 - d'.digits))
      (compareFields d d').swap := by
  have digits := (leads nonzero).digits_lt
  have digits' := (leads nonzero').digits_lt
  have lowest : compare (2 ^ 128 - 1 - d.digits) (2 ^ 128 - 1 - d'.digits) =
      (compare d.digits d'.digits).swap :=
    compare_sub (by omega) (by omega)
  have highest : compare (~~~d.biased).toNat (~~~d'.biased).toNat =
      (compare d.biased.toNat d'.biased.toNat).swap := by
    have range := d.biased.toNat_lt
    have range' := d'.biased.toNat_lt
    rw [UInt32.toNat_not, UInt32.toNat_not, UInt32.size]
    exact compare_sub (by omega) (by omega)
  rw [compareFields, ← compare_biased nonzero nonzero', Ordering.swap_then, ← lowest, ← highest]
  exact (parts_bigEndian (UInt32.toNat_lt _) (UInt32.toNat_lt _)).append
    (parts_bigEndian (by omega) (by omega))

end Pairs

section

variable {d : DecimalValue}

theorem magnitude_pos (nonzero : d.mantissa ≠ 0) : 0 < d.magnitude := by
  have positive : (0 : ℚ) < d.mantissa.natAbs := by
    exact_mod_cast Int.natAbs_pos.mpr nonzero
  exact div_pos positive (by positivity)

theorem value_zero (zero : d.mantissa = 0) : d.value = 0 := by
  simp [value, zero]

theorem value_pos (positive : 0 < d.mantissa) : 0 < d.value := by
  rw [value_eq_magnitude positive]
  exact magnitude_pos (by omega)

theorem value_neg (negative : d.mantissa < 0) : d.value < 0 := by
  rw [value_eq_neg_magnitude negative]
  exact neg_neg_of_pos (magnitude_pos (by omega))

end

end DecimalValue

theorem encode_zero (scale : UInt32) :
    encodeDecimalAscending 0 scale = 0x80 :: List.replicate 20 0 :=
  rfl

theorem encode_positive (positive : 0 < d.mantissa) :
    encodeDecimalAscending d.mantissa d.scale =
      0xc0 :: (bigEndian 4 d.biased.toNat ++ bigEndian 16 d.digits) := by
  simp only [encodeDecimalAscending, if_neg (show ¬d.mantissa = 0 by omega), gt_iff_lt, positive,
    if_true]
  rfl

theorem encode_negative (negative : d.mantissa < 0) :
    encodeDecimalAscending d.mantissa d.scale =
      0x40 :: (bigEndian 4 (~~~d.biased).toNat ++ bigEndian 16 (2 ^ 128 - 1 - d.digits)) := by
  simp only [encodeDecimalAscending, if_neg (show ¬d.mantissa = 0 by omega), gt_iff_lt,
    if_neg (show ¬0 < d.mantissa by omega)]
  rfl

theorem compare_neg (a b : ℚ) : compare (-a) (-b) = (compare a b).swap := by
  rcases lt_trichotomy a b with less | same | more
  · rw [compare_lt_iff_lt.mpr less, compare_gt_iff_gt.mpr (neg_lt_neg less)]
    rfl
  · rw [same, compare_eq_iff_eq.mpr rfl, compare_eq_iff_eq.mpr rfl]
    rfl
  · rw [compare_gt_iff_gt.mpr more, compare_lt_iff_lt.mpr (neg_lt_neg more)]
    rfl

theorem parts_of_less {x y : UInt8} {u v : List UInt8} {a b : ℚ} (below : compare x y = .lt)
    (less : a < b) : Parts (x :: u) (y :: v) (compare a b) := by
  rw [compare_lt_iff_lt.mpr less, ← below]
  exact .part (by rw [below]; decide) u v

theorem parts_of_greater {x y : UInt8} {u v : List UInt8} {a b : ℚ} (above : compare x y = .gt)
    (more : b < a) : Parts (x :: u) (y :: v) (compare a b) := by
  rw [compare_gt_iff_gt.mpr more, ← above]
  exact .part (by rw [above]; decide) u v

open DecimalValue

/-- The keys of two decimals part in the order of the values, unless the decimals have one sign
and are not separated. -/
theorem parts_decimal (d d' : DecimalValue) :
    ∃ o, Parts (encodeDecimalAscending d.mantissa d.scale)
        (encodeDecimalAscending d'.mantissa d'.scale) o ∧
      (o = compare d.value d'.value ↔ (d.SameSign d' → d.Separated d')) := by
  have apart : ¬d.SameSign d' →
      Parts (encodeDecimalAscending d.mantissa d.scale)
        (encodeDecimalAscending d'.mantissa d'.scale) (compare d.value d'.value) →
      ∃ o, Parts (encodeDecimalAscending d.mantissa d.scale)
          (encodeDecimalAscending d'.mantissa d'.scale) o ∧
        (o = compare d.value d'.value ↔ (d.SameSign d' → d.Separated d')) :=
    fun signs parts => ⟨_, parts, iff_of_true rfl fun same => absurd same signs⟩
  unfold SameSign at apart ⊢
  rcases lt_trichotomy d.mantissa 0 with negative | zero | positive
  · have below := value_neg negative
    rw [encode_negative negative] at apart ⊢
    rcases lt_trichotomy d'.mantissa 0 with negative' | zero' | positive'
    · have nonzero : d.mantissa ≠ 0 := by omega
      have nonzero' : d'.mantissa ≠ 0 := by omega
      rw [encode_negative negative', value_eq_neg_magnitude negative,
        value_eq_neg_magnitude negative', compare_neg]
      refine ⟨_, .cons 0x40 (parts_complement nonzero nonzero'), ?_⟩
      rw [Ordering.swap_inj, compareFields_iff nonzero nonzero']
      exact ⟨fun separated _ => separated, fun separated => separated (.inl ⟨negative, negative'⟩)⟩
    · refine apart (by omega) ?_
      rw [zero', encode_zero, value_zero zero']
      exact parts_of_less (by decide) below
    · refine apart (by omega) ?_
      rw [encode_positive positive']
      exact parts_of_less (by decide) (below.trans (value_pos positive'))
  · refine apart (by omega) ?_
    rw [zero, encode_zero, value_zero zero]
    rcases lt_trichotomy d'.mantissa 0 with negative' | zero' | positive'
    · rw [encode_negative negative']
      exact parts_of_greater (by decide) (value_neg negative')
    · rw [zero', encode_zero, value_zero zero', compare_eq_iff_eq.mpr rfl]
      exact .refl _
    · rw [encode_positive positive']
      exact parts_of_less (by decide) (value_pos positive')
  · have above := value_pos positive
    rw [encode_positive positive] at apart ⊢
    rcases lt_trichotomy d'.mantissa 0 with negative' | zero' | positive'
    · refine apart (by omega) ?_
      rw [encode_negative negative']
      exact parts_of_greater (by decide) ((value_neg negative').trans above)
    · refine apart (by omega) ?_
      rw [zero', encode_zero, value_zero zero']
      exact parts_of_greater (by decide) above
    · have nonzero : d.mantissa ≠ 0 := by omega
      have nonzero' : d'.mantissa ≠ 0 := by omega
      rw [encode_positive positive', value_eq_magnitude positive, value_eq_magnitude positive']
      refine ⟨_, .cons 0xc0 (parts_fields nonzero nonzero'), ?_⟩
      rw [compareFields_iff nonzero nonzero']
      exact ⟨fun separated _ => separated, fun separated => separated (.inr ⟨positive, positive'⟩)⟩

/-- Decimals of one value are separated. -/
theorem separated_of_value_eq (same : d.value = d'.value) (signs : d.SameSign d') :
    d.Separated d' := by
  have magnitudes : d.magnitude = d'.magnitude := by
    rcases signs with ⟨negative, negative'⟩ | ⟨positive, positive'⟩
    · rw [value_eq_neg_magnitude negative, value_eq_neg_magnitude negative'] at same
      exact neg_injective same
    · rwa [value_eq_magnitude positive, value_eq_magnitude positive'] at same
  have nonzero : d.mantissa ≠ 0 := by rcases signs with signs | signs <;> omega
  have nonzero' : d'.mantissa ≠ 0 := by rcases signs with signs | signs <;> omega
  obtain ⟨exponents, -⟩ := (leads nonzero).unique (magnitudes ▸ leads nonzero')
  exact ⟨fun less => by omega, fun more => by omega, fun _ _ => magnitudes⟩

/-! ## The order of keys -/

/-- The text continues the key of the other: it goes on with a NUL. -/
def Continues (s t : String) : Prop := utf8 s ++ [0] <+: utf8 t

/-- The keys of two values of one kind are in the order of the values. -/
def PriorityValue.Sorts (direction : PriorityDirection) : PriorityValue → PriorityValue → Prop
  | decimal d, decimal e => d.SameSign e → d.Separated e
  | text s, text t => direction = .descending → ¬Continues s t ∧ ¬Continues t s
  | _, _ => True

/-- The key of the value is in order with that of any other such value. -/
def PriorityValue.Fits (direction : PriorityDirection) : PriorityValue → Prop
  | timestamp _ _ => True
  | int64 _ => True
  | decimal d => d.Exact
  | text s => direction = .descending → 0 ∉ utf8 s

theorem PriorityValue.Fits.sorts {direction : PriorityDirection} {a b : PriorityValue}
    (fits : a.Fits direction) (fits' : b.Fits direction) : a.Sorts direction b := by
  cases a <;> cases b <;> try trivial
  case decimal.decimal d e => exact fun signs => Exact.separated fits fits' signs
  case text.text s t =>
    have clean : ∀ {s t : String}, 0 ∉ utf8 t → ¬Continues s t :=
      fun clean continues => clean (continues.subset (by simp))
    exact fun descending => ⟨clean (fits' descending), clean (fits descending)⟩

def PriorityDirection.apply : PriorityDirection → Ordering → Ordering
  | ascending, o => o
  | descending, o => o.swap

theorem PriorityDirection.apply_inj (direction : PriorityDirection) {o o' : Ordering} :
    direction.apply o = direction.apply o' ↔ o = o' := by
  cases direction with
  | ascending => rfl
  | descending => exact Ordering.swap_inj

theorem compare_of_parts {a b : PriorityValue} {o : Ordering} (direction : PriorityDirection)
    (parts : Parts (encodePriorityAscending a) (encodePriorityAscending b) o) :
    compare (prioritySort a direction) (prioritySort b direction) = direction.apply o := by
  cases direction with
  | ascending => exact parts.compare_eq
  | descending => exact (parts.map_antitone compare_complement).compare_eq

theorem compare_zero_le (x : UInt8) : compare 0 x ≠ .gt := by
  rw [compare_uint8, Nat.compare_eq_ite_lt]
  split_ifs <;> simp_all

/-- A text sorts before one that continues its key, in both directions. -/
theorem Continues.compare_eq {s t : String} (continues : Continues s t) :
    compare (utf8 s) (utf8 t) = .lt ∧
      compare (prioritySort (.text s) .descending) (prioritySort (.text t) .descending) = .lt := by
  obtain ⟨rest, whole⟩ := continues
  constructor
  · rw [← whole, List.append_assoc]
    exact compare_proper (by simp)
  · have key : prioritySort (.text t) .descending = prioritySort (.text s) .descending ++
        (rest ++ [0]).map (· ^^^ 0xff) := by
      change (utf8 t ++ [0]).map (· ^^^ 0xff) = (utf8 s ++ [0]).map (· ^^^ 0xff) ++ _
      rw [← whole, ← List.map_append, List.append_assoc (utf8 s ++ [0])]
    rw [key]
    exact compare_proper (by simp)

/-- In descending order the keys of two texts are in order if none continues the other. -/
theorem compare_descending_texts (s t : String) :
    compare (prioritySort (.text s) .descending) (prioritySort (.text t) .descending) =
      (compare (utf8 s) (utf8 t)).swap ↔ ¬Continues s t ∧ ¬Continues t s := by
  constructor
  · intro ordered
    constructor
    · intro continues
      rw [continues.compare_eq.1, continues.compare_eq.2] at ordered
      cases ordered
    · intro continues
      rw [Std.OrientedOrd.eq_swap (a := utf8 s), continues.compare_eq.1,
        Std.OrientedOrd.eq_swap (a := prioritySort (.text s) .descending),
        continues.compare_eq.2] at ordered
      cases ordered
  · rintro ⟨left, right⟩
    rw [← compare_terminated (u := utf8 s) compare_zero_le]
    rcases parts_or_proper (utf8 s ++ [0]) (utf8 t ++ [0]) with parts | ⟨initial, differ⟩ |
      ⟨initial, differ⟩
    · exact compare_of_parts (a := .text s) (b := .text t) .descending parts
    · exact absurd ((List.prefix_concat_iff.mp initial).resolve_left differ) left
    · exact absurd ((List.prefix_concat_iff.mp initial).resolve_left differ) right

/-- The keys of two values of one kind are in the order of the values, or in the reverse order in
a descending model, if and only if no text goes on with a NUL after the other and no decimals of
one sign are merged or turned around by their fields. Values that fit their keys are always in
order, and numerically equal decimals always have one key. -/
theorem prioritySort_ordered_iff (direction : PriorityDirection) :
    (∀ a b o, PriorityValue.order a b = some o →
      (compare (prioritySort a direction) (prioritySort b direction) = direction.apply o ↔
        a.Sorts direction b)) ∧
    (∀ a b : PriorityValue, a.Fits direction → b.Fits direction → a.Sorts direction b) ∧
    ∀ d e : DecimalValue, d.value = e.value →
      prioritySort (.decimal d) direction = prioritySort (.decimal e) direction := by
  refine ⟨fun a b o ordered => ?_, fun a b fits fits' => fits.sorts fits', fun d e same => ?_⟩
  · cases a <;> cases b <;> cases ordered
    case timestamp.timestamp.refl s n s' n' =>
      exact iff_of_true (compare_of_parts direction ((parts_int64 s s').append
        (parts_uint32 n n'))) trivial
    case int64.int64.refl m n =>
      exact iff_of_true (compare_of_parts direction (parts_int64 m n)) trivial
    case decimal.decimal.refl d e =>
      obtain ⟨o, parts, ordered⟩ := parts_decimal d e
      rw [compare_of_parts (a := .decimal d) (b := .decimal e) direction parts,
        direction.apply_inj]
      exact ordered
    case text.text.refl s t =>
      cases direction with
      | ascending =>
        exact iff_of_true (compare_terminated compare_zero_le) fun descending => by cases descending
      | descending =>
        exact (compare_descending_texts s t).trans
          ⟨fun apart _ => apart, fun apart => apart rfl⟩
  · obtain ⟨o, parts, ordered⟩ := parts_decimal d e
    have equal : o = .eq := by
      rw [ordered.mpr (separated_of_value_eq same), compare_eq_iff_eq.mpr same]
    have keys := parts.eq_iff.mpr equal
    cases direction with
    | ascending => exact keys
    | descending => exact congrArg (List.map (· ^^^ 0xff)) keys

theorem prioritySort_ordered_iff_decimals :
    let half : DecimalValue := { mantissa := 5, scale := 1 }
    let third : DecimalValue := { mantissa := 33, scale := 2 }
    let fifty : DecimalValue := { mantissa := 50, scale := 2 }
    compare (prioritySort (.decimal half) .descending) (prioritySort (.decimal third) .descending) =
        .lt ∧
      prioritySort (.decimal half) .descending = prioritySort (.decimal fifty) .descending := by
  intro half third fifty
  obtain ⟨ordered, fit, equal⟩ := prioritySort_ordered_iff .descending
  have one : (1 : UInt32).toNat = 1 := rfl
  have two : (2 : UInt32).toNat = 2 := rfl
  constructor
  · have more : PriorityValue.order (.decimal half) (.decimal third) = some .gt := by
      have values : third.value < half.value := by
        norm_num [DecimalValue.value, half, third, one, two]
      exact congrArg some (compare_gt_iff_gt.mpr values)
    exact (ordered _ _ _ more).mpr (fit _ _ (.inr (by decide)) (.inr (by decide)))
  · exact equal _ _ (by norm_num [DecimalValue.value, half, fifty, one, two])

theorem DecimalValue.value_lt_one (one : d.mantissa = 1) (scaled : 0 < d.scale.toNat) :
    d.value < 1 := by
  rw [value, one, Int.cast_one, div_lt_one (by positivity)]
  exact one_lt_pow₀ (by norm_num) (by omega)

/-- At an extreme scale a value below one sorts above it, two mantissas of 39 digits share a key,
and a text that continues with a NUL sorts last in both directions. -/
theorem prioritySort_misorders :
    let tiny : DecimalValue := { mantissa := 1, scale := 2147483649 }
    let one : DecimalValue := { mantissa := 1, scale := 0 }
    let large : DecimalValue := { mantissa := 10 ^ 38, scale := 0 }
    let larger : DecimalValue := { mantissa := 10 ^ 38 + 1, scale := 0 }
    (tiny.value < one.value ∧
      compare (prioritySort (.decimal tiny) .ascending) (prioritySort (.decimal one) .ascending) =
        .gt) ∧
    (large.value < larger.value ∧
      prioritySort (.decimal large) .ascending = prioritySort (.decimal larger) .ascending) ∧
    (PriorityValue.order (.text "a") (.text "a\x00") = some .lt ∧
      compare (prioritySort (.text "a") .descending) (prioritySort (.text "a\x00") .descending) =
        .lt) := by
  intro tiny one large larger
  refine ⟨⟨?_, by decide +kernel⟩, ⟨?_, by decide +kernel⟩, by decide +kernel, by decide +kernel⟩
  · have unit : one.value = 1 := by simp [DecimalValue.value, one]
    rw [unit]
    exact DecimalValue.value_lt_one rfl (by decide)
  · norm_num [DecimalValue.value, large, larger]

end Domain
