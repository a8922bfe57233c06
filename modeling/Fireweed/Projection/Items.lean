import Fireweed.Checked
import Fireweed.Engine
import Fireweed.Timestamp

/-!
# Items of the queue projection

Item identity and lifecycle, the queue definition as far as the projection reads
it, the resident record of an item, and the index keys a record has. Priorities,
entity documents and typed index values are opaque: the definition carries the
functions on them that the projection calls.
-/

namespace Projection

instance : Std.TransOrd Domain.UtcTimestamp := inferInstance

instance : Std.LawfulEqOrd Domain.UtcTimestamp where
  eq_of_compare equal := compare_eq_iff_eq.mp equal

open BTree Checked Domain Engine Std

abbrev Bytes := List UInt8

abbrev ItemId := UInt64

abbrev ClientItemKey := String

abbrev LeaseToken := String

abbrev GroupKey := String

namespace ItemId

/-- The decimal of the packed value. -/
def render (id : ItemId) : String := Nat.repr id.toNat

/-- The decimal parser of `u64`: one leading plus sign and leading zeros are accepted. -/
def parse (rendered : String) : Option ItemId :=
  let digits := match rendered.toList with
    | '+' :: rest => rest
    | digits => digits
  if digits.isEmpty || !digits.all Char.isDigit then none
  else
    let value := Nat.ofDigitChars 10 digits 0
    if value < 2 ^ 64 then some (UInt64.ofNat value) else none

end ItemId

/-! ## Lifecycle -/

inductive ItemState where
  | pending
  | leased
  | complete
  | failed
deriving DecidableEq, Repr

def ItemState.isTerminal : ItemState → Bool
  | .complete | .failed => true
  | .pending | .leased => false

inductive ItemEvent where
  | claim
  | finalizeComplete
  | finalizeFail
  | finalizeRetry
  | finalizeRelease
  | finalizeRearm
  | leaseExpired
deriving DecidableEq, Repr

def applyTransition : ItemState → ItemEvent → Option ItemState
  | .pending, .claim => some .leased
  | .leased, .finalizeComplete => some .complete
  | .leased, .finalizeFail => some .failed
  | .leased, .finalizeRetry => some .pending
  | .leased, .finalizeRelease => some .pending
  | .leased, .finalizeRearm => some .pending
  | .leased, .leaseExpired => some .pending
  | _, _ => none

/-- A retry that has used all its deliveries is a failure. -/
def failureEvent (attemptsSoFar maxAttempts : UInt32) : ItemEvent :=
  if attemptsSoFar ≥ maxAttempts then .finalizeFail else .finalizeRetry

/-! ## Queue definition -/

inductive OrderingMode where
  | strict
  | boundedRelaxed
deriving DecidableEq, Repr

inductive RecurrenceMode where
  | oneshot
  | recurring
deriving DecidableEq, Repr

structure RecurrencePolicy where
  mode : RecurrenceMode
  «until» : Option UtcTimestamp

inductive GateKeyPolicy where
  | none
  | dynamic
deriving DecidableEq, Repr

inductive IndexType where
  | string
  | integer
  | float
  | boolean
  | datetime
deriving DecidableEq, Repr

/-- A legacy index over configured item fields. -/
structure IndexSpec where
  name : String
  fields : List String
  unique : Bool

structure IndexField where
  field : String
  indexType : IndexType

/-- The declared fields of a typed index; a single index has one. -/
inductive IndexDeclaration where
  | single (field : IndexField) (unique : Bool)
  | compound (fields : List IndexField) (unique : Bool)

namespace IndexDeclaration

def unique : IndexDeclaration → Bool
  | single _ unique => unique
  | compound _ unique => unique

def fields : IndexDeclaration → List IndexField
  | single field _ => [field]
  | compound fields _ => fields

end IndexDeclaration

structure QueueIndex where
  name : String
  declaration : IndexDeclaration

abbrev IndexFields (Typed : Type) := BTreeMap String Typed

inductive EntityEditOperation (Value : Type) where
  | set (value : Value)
  | remove

/-- The operations on entity documents and typed index values that the projection calls. -/
structure Documents (Value Typed : Type) where
  extractPath : Value → String → Option Value
  isNull : Value → Bool
  jsonToTypedValue : Value → IndexType → EngineResult Typed
  framedTypedValue : Typed → IndexType → EngineResult Bytes
  indexFieldsAsEntity : IndexFields Typed → EngineResult Value
  /-- The value under a JSON pointer; malformed pointers are refused. -/
  pointer : Value → String → Option Value
  validPointer : String → Bool
  applyEntityEdit : Option Value → String → EntityEditOperation Value → Option (Option Value)

structure QueueDefinition (Priority Value Typed : Type) where
  documents : Documents Value Typed
  /-- The order-preserving bytes of a priority under the queue's priority model. -/
  prioritySort : Priority → Bytes
  /-- Whether a priority is of the kind the priority model declares. -/
  priorityOfKind : Priority → Bool
  orderingMode : OrderingMode
  maxRankError : UInt32
  recurrence : RecurrencePolicy
  secondaryIndexes : List IndexSpec
  typedIndexes : List QueueIndex
  gateKeyPolicy : GateKeyPolicy
  maxGateKeysPerItem : Option UInt64
  maxGatesPerRequest : Option UInt64

/-! ## Records -/

/-- A position of the queue's log: epoch first, then sequence. -/
structure CommandPosition where
  backendEpoch : UInt64
  sequence : UInt64
deriving DecidableEq

def CommandPosition.precedes (position other : CommandPosition) : Bool :=
  position.backendEpoch < other.backendEpoch ||
    (position.backendEpoch == other.backendEpoch && position.sequence < other.sequence)

structure ItemRecord (Priority Value Typed : Type) where
  itemId : ItemId
  explicitClientItemKey : Option ClientItemKey
  priority : Option Priority
  notBefore : Option UtcTimestamp
  eligibleSince : UtcTimestamp
  groupKey : Option GroupKey
  cohortSize : Option UInt64
  payload : Option Bytes
  fields : BTreeMap String Bytes
  metadata : BTreeMap String Bytes
  gateKeys : List String
  indexFields : IndexFields Typed
  entityDocument : Option Value
  state : ItemState
  itemVersion : UInt64
  attemptCount : UInt32
  maxAttempts : UInt32
  createdSeq : UInt64
  leaseToken : Option LeaseToken
  leaseExpiresAt : Option UtcTimestamp
  leaseIsCohort : Bool
  fenced : Bool
  superseded : Bool
  terminalAt : Option UtcTimestamp
  terminalPosition : Option CommandPosition

variable {Priority Value Typed : Type}

/-- A key equal to the rendered id is the default and is not stored. -/
def explicitClientItemKey (id : ItemId) (key : ClientItemKey) : Option ClientItemKey :=
  if key = id.render then none else some key

def ItemRecord.clientItemKey (record : ItemRecord Priority Value Typed) : ClientItemKey :=
  record.explicitClientItemKey.getD record.itemId.render

/-- The epoch of the clock, used where a command carries no time. -/
def epoch : UtcTimestamp := ⟨0, 0, UtcTimestamp.whole_normal⟩

def gateKeysBlocked (blockedGates : BTreeSet String) (gateKeys : List String) : Bool :=
  gateKeys.any blockedGates.contains

/-! ## Index keys -/

abbrev IndexKey := String × Bytes

def lengthBytes (n : Nat) : Bytes :=
  [UInt8.ofNat (n / 2 ^ 24), UInt8.ofNat (n / 2 ^ 16), UInt8.ofNat (n / 2 ^ 8), UInt8.ofNat n]

def legacyRawKey (fieldBytes : List Bytes) : Bytes :=
  fieldBytes.flatMap fun bytes => lengthBytes bytes.length ++ bytes

/-- The key of a record under a legacy index, if it has every field of the index. -/
def legacyIndexKey (spec : IndexSpec) (fields : BTreeMap String Bytes) : Option Bytes :=
  (spec.fields.mapM fun name => fields[name]?).map legacyRawKey

def legacyIndexKeys (specs : List IndexSpec) (fields : BTreeMap String Bytes) : List IndexKey :=
  specs.filterMap fun spec => (legacyIndexKey spec fields).map (spec.name, ·)

namespace Documents

variable (documents : Documents Value Typed)

def declaredIndexFieldPaths (indexes : List QueueIndex) : List IndexField :=
  indexes.flatMap fun index => index.declaration.fields

/-- One declared path: kept from an earlier declaration, absent, null, or coerced. -/
def extractField (entity : Value) (out : IndexFields Typed) (declared : IndexField) :
    EngineResult (IndexFields Typed) :=
  if out.contains declared.field then .ok out
  else match documents.extractPath entity declared.field with
    | none => .ok out
    | some raw =>
      if documents.isNull raw then .ok out
      else (documents.jsonToTypedValue raw declared.indexType).map (out.insert declared.field)

def extractIndexFieldsFromEntity (indexes : List QueueIndex) (entity : Value) :
    EngineResult (IndexFields Typed) :=
  (declaredIndexFieldPaths indexes).foldlM (documents.extractField entity) ∅

/-- The framed values of the declared fields in order; none if one is missing. -/
def frameFields (fields : IndexFields Typed) : List IndexField → EngineResult (Option Bytes)
  | [] => .ok (some [])
  | declared :: rest =>
    match fields[declared.field]? with
    | none => .ok none
    | some value => do
      let framed ← documents.framedTypedValue value declared.indexType
      let tail ← frameFields fields rest
      .ok (tail.map (framed ++ ·))

def typedIndexKey (declaration : IndexDeclaration) (fields : IndexFields Typed) :
    EngineResult (Option Bytes) :=
  documents.frameFields fields declaration.fields

def typedIndexKeys (indexes : List QueueIndex) (fields : IndexFields Typed) :
    EngineResult (List IndexKey) := do
  let keys ← indexes.mapM fun index =>
    (documents.typedIndexKey index.declaration fields).map (·.map (index.name, ·))
  .ok (keys.filterMap id)

/-- The key of a document under one typed index, extracted for that index alone. -/
def entityIndexKey (index : QueueIndex) (entity : Option Value) : EngineResult (Option Bytes) :=
  match entity with
  | none => .ok none
  | some entity => do
    let fields ← documents.extractIndexFieldsFromEntity [index] entity
    documents.typedIndexKey index.declaration fields

def entityIndexKeys (indexes : List QueueIndex) (entity : Option Value) :
    EngineResult (List IndexKey) := do
  let keys ← indexes.mapM fun index =>
    (documents.entityIndexKey index entity).map (·.map (index.name, ·))
  .ok (keys.filterMap id)

/-- The stored document, else one made of the native fields; an error of that leaves none. -/
def rehydrateEntityDocument (entity : Option Value) (fields : IndexFields Typed) : Option Value :=
  match entity with
  | some entity => some entity
  | none => if fields.isEmpty then none else (documents.indexFieldsAsEntity fields).toOption

end Documents

namespace QueueDefinition

variable (definition : QueueDefinition Priority Value Typed)

/-- Legacy keys, then typed keys: of the native fields if there are any, else of the document. -/
def recordIndexKeys (fields : BTreeMap String Bytes) (indexFields : IndexFields Typed)
    (entity : Option Value) : EngineResult (List IndexKey) := do
  let typed ←
    if !indexFields.isEmpty then
      definition.documents.typedIndexKeys definition.typedIndexes indexFields
    else definition.documents.entityIndexKeys definition.typedIndexes entity
  .ok (legacyIndexKeys definition.secondaryIndexes fields ++ typed)

def recordEntityIndexKeys (record : ItemRecord Priority Value Typed) :
    EngineResult (List IndexKey) :=
  definition.recordIndexKeys record.fields record.indexFields
    (if record.indexFields.isEmpty then record.entityDocument else none)

/-- The entity is read only where there are no native fields. -/
theorem recordEntityIndexKeys_eq (record : ItemRecord Priority Value Typed) :
    definition.recordEntityIndexKeys record =
      definition.recordIndexKeys record.fields record.indexFields record.entityDocument := by
  rw [recordEntityIndexKeys, recordIndexKeys, recordIndexKeys]
  by_cases native : record.indexFields.isEmpty = true
  · simp [native]
  · simp [native]

end QueueDefinition

end Projection
