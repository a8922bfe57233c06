import Fireweed.Postcard

/-!
# Field values, definitions and schemas

The storage-independent value vocabulary: typed scalar fields, the definition of
a collection and the queue schema, with the checks that admission applies to
them. A float is its bit pattern, so that the equality and order of the source
(`0.0 == -0.0`, `NaN != NaN`) are definitions rather than identity of values.
-/

namespace QueueContract

open BTree Checked Postcard Std

instance ordScoped : Ord (Option String × String) := lexOrd

instance transOrdScoped : TransOrd (Option String × String) :=
  inferInstanceAs (@TransOrd _ lexOrd)

instance lawfulEqOrdScoped : LawfulEqOrd (Option String × String) :=
  inferInstanceAs (@LawfulEqOrd _ lexOrd)

/-! ## Errors -/

/-- `panic` stands for an aborting index or unwrap of the source, which its own
error type does not have. -/
inductive QueueError where
  | invalid (message : String)
  | tooLarge
  | queueNotFound
  | definitionConflict
  | requestConflict
  | requestExpired
  | claimExpired
  | busy
  | outcomeUnknown (message : String)
  | panic
deriving DecidableEq, Repr

abbrev QueueResult (α : Type) := Except QueueError α

inductive Rejection where
  | staleLease
  | versionConflict
  | alreadyExists
  | notFound
  | leased
  | invalid (message : String)
  | uniqueConflict
  | terminal
  | tooLarge
deriving DecidableEq, Repr

/-- An index expression, which aborts on a missing key. -/
def index {κ ν : Type} [Ord κ] [TransOrd κ] (m : BTreeMap κ ν) (k : κ) : QueueResult ν :=
  match m[k]? with
  | some v => .ok v
  | none => .error .panic

/-! ## Floats -/

/-- An IEEE-754 double, as its bits. -/
structure F64 where
  bits : UInt64
deriving DecidableEq, Repr

namespace F64

def exponent (x : F64) : UInt64 := (x.bits >>> 52) &&& 0x7FF

def mantissa (x : F64) : UInt64 := x.bits &&& 0xFFFFFFFFFFFFF

def magnitude (x : F64) : UInt64 := x.bits &&& 0x7FFFFFFFFFFFFFFF

def isFinite (x : F64) : Bool := x.exponent != 0x7FF

def isNan (x : F64) : Bool := x.exponent == 0x7FF && x.mantissa != 0

def isZero (x : F64) : Bool := x.magnitude == 0

/-- The comparison `==` of the source: signed zeros agree and a NaN is unequal to itself. -/
def eq (x y : F64) : Bool :=
  !x.isNan && !y.isNan && (x.bits == y.bits || (x.isZero && y.isZero))

/-- Sign and magnitude as one integer, in the numeric order of the finite floats. -/
def order (x : F64) : Int :=
  if x.bits >>> 63 == 1 then -(x.magnitude.toNat : Int) else x.magnitude.toNat

theorem toNat_magnitude (x : F64) : x.magnitude.toNat = x.bits.toNat % 2 ^ 63 := by
  rw [magnitude, UInt64.toNat_and]
  exact Nat.and_two_pow_sub_one_eq_mod x.bits.toNat 63

theorem toNat_exponent (x : F64) : x.exponent.toNat = x.bits.toNat / 2 ^ 52 % 2 ^ 11 := by
  rw [exponent, UInt64.toNat_and, UInt64.toNat_shiftRight]
  have shifted : x.bits.toNat >>> (UInt64.toNat 52 % 64) = x.bits.toNat / 2 ^ 52 :=
    Nat.shiftRight_eq_div_pow _ _
  rw [shifted]
  exact Nat.and_two_pow_sub_one_eq_mod _ 11

theorem isFinite_of_isZero {x : F64} (zero : x.isZero = true) : x.isFinite = true := by
  have magnitude : x.magnitude.toNat = 0 := by
    rw [beq_iff_eq.mp zero]
    rfl
  rw [toNat_magnitude] at magnitude
  have range := x.bits.toNat_lt
  have exponent := toNat_exponent x
  simp only [isFinite, bne_iff_ne]
  intro infinite
  rw [infinite] at exponent
  simp only [UInt64.reduceToNat] at exponent
  omega

/-- Two zeros are equal whatever their signs. -/
theorem eq_of_isZero {x y : F64} (zeroX : x.isZero = true) (zeroY : y.isZero = true) :
    x.eq y = true := by
  have number : ∀ {z : F64}, z.isZero = true → z.isNan = false := by
    intro z zero
    have finite : z.exponent ≠ 0x7FF := bne_iff_ne.mp (isFinite_of_isZero zero)
    simp [isNan, finite]
  simp [eq, number zeroX, number zeroY, zeroX, zeroY]

end F64

/-! ## Values -/

inductive FieldType where
  | integer
  | float
  | boolean
  | text
  | bytes
deriving DecidableEq, Repr

inductive FieldValue where
  | integer (n : Int64)
  | float (x : F64)
  | boolean (b : Bool)
  | text (s : String)
  | bytes (b : List UInt8)
deriving DecidableEq, Repr

namespace FieldValue

def fieldType : FieldValue → FieldType
  | integer _ => .integer
  | float _ => .float
  | boolean _ => .boolean
  | text _ => .text
  | bytes _ => .bytes

/-- The derived `PartialEq`; equality of values up to the equality of floats. -/
def eq : FieldValue → FieldValue → Bool
  | integer a, integer b => a == b
  | float a, float b => a.eq b
  | boolean a, boolean b => a == b
  | text a, text b => a == b
  | bytes a, bytes b => a == b
  | _, _ => false

end FieldValue

instance : LawfulBEq (Option FieldValue) := inferInstance

abbrev Fields := BTreeMap String FieldValue

abbrev FieldEdits := BTreeMap String (Option FieldValue)

/-- `==` on field maps. -/
def Fields.eq (a b : Fields) : Bool := mapEq FieldValue.eq a b

/-- `==` on optional values. -/
def valueEq (a b : Option FieldValue) : Bool := optionEq FieldValue.eq a b

theorem FieldValue.eq_symm (a b : FieldValue) : a.eq b = b.eq a := by
  cases a <;> cases b <;> simp [FieldValue.eq, F64.eq, Bool.and_comm, BEq.comm]

theorem valueEq_symm (a b : Option FieldValue) : valueEq a b = valueEq b a := by
  cases a <;> cases b <;> simp [valueEq, optionEq, FieldValue.eq_symm]

theorem Fields.eq_iff {a b : Fields} :
    Fields.eq a b = true ↔ ∀ field : String, valueEq a[field]? b[field]? = true :=
  mapEq_iff FieldValue.eq a b

structure CollectionDefinition where
  fields : BTreeMap String FieldType
  indexes : BTreeMap String (List String)
  uniqueIndexes : BTreeSet String
  additionalFieldPrefixes : BTreeSet String

structure QueueSchema where
  work : CollectionDefinition
  state : BTreeMap String CollectionDefinition
  progressBoundNanos : UInt64
  maxAttempts : UInt32

structure QueueAddress where
  tenant : String
  queue : String
deriving DecidableEq, Repr

structure QueueLimits where
  maxRecords : UInt32
  maxGroups : UInt32
  maxGroupBytes : UInt64
  maxRequestBytes : UInt64
  maxResponseBytes : UInt64
  maxBodyBytes : UInt64
  maxStateBytes : UInt64
deriving DecidableEq, Repr

/-- `QueueLimits::default()`. -/
def QueueLimits.default : QueueLimits where
  maxRecords := 4096
  maxGroups := 64
  maxGroupBytes := 134217728
  maxRequestBytes := 268435456
  maxResponseBytes := 134217728
  maxBodyBytes := 1048576
  maxStateBytes := 67108864

/-! ## Text -/

/-- The Unicode `White_Space` property. -/
def isWhitespace (c : Char) : Bool :=
  let n := c.toNat
  (9 ≤ n && n ≤ 13) || n == 0x20 || n == 0x85 || n == 0xA0 || n == 0x1680 ||
    (0x2000 ≤ n && n ≤ 0x200A) || n == 0x2028 || n == 0x2029 || n == 0x202F ||
    n == 0x205F || n == 0x3000

/-- `s.trim().is_empty()`. -/
def blank (s : String) : Bool := s.toList.all isWhitespace

/-- `s.starts_with(pre)`. -/
def startsWith (s pre : String) : Bool := pre.toList.isPrefixOf s.toList

def invalid (message : String) : QueueError := .invalid message

def name (value : String) : QueueResult Unit :=
  rejectIf (blank value) (invalid "invalid identifier")

def QueueAddress.validate (queue : QueueAddress) : QueueResult Unit := do
  name queue.tenant
  name queue.queue

def QueueLimits.validate (limits : QueueLimits) : QueueResult Unit :=
  rejectIf (limits.maxRecords == 0 || limits.maxGroups == 0 || limits.maxBodyBytes == 0 ||
      limits.maxStateBytes == 0 || limits.maxResponseBytes == 0 ||
      decide (limits.maxGroupBytes > limits.maxRequestBytes) ||
      decide (limits.maxBodyBytes > limits.maxGroupBytes) ||
      decide (limits.maxStateBytes > limits.maxGroupBytes))
    (invalid "inconsistent admission limits")

/-! ## Value checks -/

def field (value : FieldValue) (expected : FieldType) : QueueResult Unit := do
  rejectIf (value.fieldType != expected) (invalid "field type mismatch")
  match value with
  | .float n => rejectIf (!n.isFinite) (invalid "float must be finite")
  | _ => .ok ()

namespace CollectionDefinition

def admitsField (definition : CollectionDefinition) (key : String) : Bool :=
  definition.fields.contains key ||
    definition.additionalFieldPrefixes.toList.any (startsWith key)

def validateValue (definition : CollectionDefinition) (key : String) (value : FieldValue) :
    QueueResult Unit := do
  name key
  match definition.fields[key]? with
  | some expected => field value expected
  | none =>
    if definition.admitsField key then field value value.fieldType
    else .error (invalid "undeclared field")

end CollectionDefinition

/-- Every entry of a field map is admitted by the definition. -/
def fields (values : Fields) (definition : CollectionDefinition) : QueueResult Unit :=
  forM values.toList fun entry => definition.validateValue entry.1 entry.2

/-- One round of the loop of the schema check. -/
def CollectionDefinition.validate (definition : CollectionDefinition) (collection : String) :
    QueueResult Unit := do
  name collection
  rejectIf (definition.uniqueIndexes.toList.any fun key => !definition.indexes.contains key)
    (invalid "unique index must be declared")
  forM definition.additionalFieldPrefixes.toList fun pre => do
    name pre
    rejectIf (pre.toList.getLast? != some '/')
      (invalid "additional field namespace must end in slash")
  forM definition.fields.keys name
  forM definition.indexes.toList fun entry => do
    name entry.1
    rejectIf (startsWith entry.1 "$") (invalid "reserved index name")
    rejectIf (entry.2.isEmpty || decide (entry.2.length > 8)) (invalid "invalid index width")
    rejectIf ((entry.2.any fun column => !definition.fields.contains column) ||
      !decide entry.2.Nodup) (invalid "index needs distinct declared fields")

def QueueSchema.validate (schema : QueueSchema) : QueueResult Unit := do
  rejectIf (schema.progressBoundNanos == 0 || schema.maxAttempts == 0)
    (invalid "progress bound must be positive")
  schema.work.validate "work"
  forM schema.state.toList fun entry => entry.2.validate entry.1

/-! ## Predicates -/

inductive Bound where
  | included (value : FieldValue)
  | excluded (value : FieldValue)
deriving DecidableEq, Repr

def Bound.value : Bound → FieldValue
  | included v => v
  | excluded v => v

inductive Predicate where
  | equal (value : FieldValue)
  | in_ (values : List FieldValue)
  | range (lower upper : Option Bound)
deriving DecidableEq, Repr

/-- The shared comparison of filters, statistics and cursors; no coercion between types. -/
def compareFields : FieldValue → FieldValue → Option Ordering
  | .integer a, .integer b => some (compare a b)
  | .float a, .float b => if a.isFinite && b.isFinite then some (compare a.order b.order) else none
  | .boolean a, .boolean b => some (compare a b)
  | .text a, .text b => some (compare a.toUTF8.data.toList b.toUTF8.data.toList)
  | .bytes a, .bytes b => some (compare a b)
  | _, _ => none

/-- Missing index and group fields sort first. -/
def compareOptionalFields : Option FieldValue → Option FieldValue → Option Ordering
  | none, none => some .eq
  | none, some _ => some .lt
  | some _, none => some .gt
  | some a, some b => compareFields a b

/-- The test of a lower bound. -/
def Bound.below (value : FieldValue) : Bound → Bool
  | included n => compareFields value n == some .eq || compareFields value n == some .gt
  | excluded n => compareFields value n == some .gt

/-- The test of an upper bound. -/
def Bound.above (value : FieldValue) : Bound → Bool
  | included n => compareFields value n == some .eq || compareFields value n == some .lt
  | excluded n => compareFields value n == some .lt

def Predicate.matches_ (predicate : Predicate) : Option FieldValue → Bool
  | none => false
  | some value =>
    match predicate with
    | equal expected => compareFields value expected == some .eq
    | in_ values => values.any fun expected => compareFields value expected == some .eq
    | range lower upper => lower.all (Bound.below value) && upper.all (Bound.above value)

def validateFieldPredicate (definition : CollectionDefinition) (key : String) :
    Predicate → QueueResult Unit
  | predicate => do
    name key
    rejectIf (!definition.admitsField key) (invalid "undeclared filter field")
    match predicate with
    | .equal value => definition.validateValue key value
    | .in_ values => do
      rejectIf values.isEmpty (invalid "empty membership predicate")
      forM values (definition.validateValue key)
    | .range lower upper => do
      rejectIf (lower.isNone && upper.isNone) (invalid "empty range")
      forM (lower.toList ++ upper.toList) fun bound => definition.validateValue key bound.value
      match lower, upper with
      | some lower, some upper =>
        match compareFields lower.value upper.value with
        | none | some .gt => .error (invalid "inverted range")
        | _ => .ok ()
      | _, _ => .ok ()

/-! ## Wire form -/

instance : Serialize F64 := ⟨fun x => leBytes 8 x.bits.toNat⟩

instance : Serialize FieldValue :=
  ⟨fun
    | .integer n => variant 0 (serialize n)
    | .float x => variant 1 (serialize x)
    | .boolean b => variant 2 (serialize b)
    | .text s => variant 3 (serialize s)
    | .bytes b => variant 4 (serialize b)⟩

instance : Serialize Bound :=
  ⟨fun
    | .included v => variant 0 (serialize v)
    | .excluded v => variant 1 (serialize v)⟩

instance : Serialize Predicate :=
  ⟨fun
    | .equal v => variant 0 (serialize v)
    | .in_ vs => variant 1 (serialize vs)
    | .range lower upper => variant 2 (serialize lower ++ serialize upper)⟩

instance : Serialize QueueAddress := ⟨fun q => serialize q.tenant ++ serialize q.queue⟩

end QueueContract
