import Fireweed.Projection.Image

/-!
# Planning bulk mutations

A mutation request names items or selects them by predicates. The planner decides
each one against the current projection, resolves its patch into complete values,
and applies the resulting command to a copy before it is handed out. An addressed
item may be superseded; a selected one may not.
-/

namespace Projection

open BTree Checked Domain Engine Std

variable {Priority Value Typed : Type}

/-! ## Requests -/

inductive TimestampComparison where
  | equal
  | before
  | beforeOrEqual
  | after
  | afterOrEqual

def TimestampComparison.holds (comparison : TimestampComparison) (actual value : UtcTimestamp) :
    Bool :=
  match comparison with
  | equal => decide (actual = value)
  | before => decide (actual < value)
  | beforeOrEqual => decide (actual ≤ value)
  | after => decide (value < actual)
  | afterOrEqual => decide (value ≤ actual)

inductive ItemPredicate (Value : Type) where
  | any (predicates : List (ItemPredicate Value))
  | all (predicates : List (ItemPredicate Value))
  | not (predicate : ItemPredicate Value)
  | stateIn (states : List ItemState)
  | attemptCountEq (expected : UInt32)
  | leaseActive (expected : Bool)
  | notBefore (comparison : TimestampComparison) (value : UtcTimestamp)
  | clientItemKeyEq (key : ClientItemKey)
  | groupKeyEq (group : Option GroupKey)
  | fieldEq (name : String) (value : Option Bytes)
  | metadataEq (name : String) (value : Option Bytes)
  | entityEq (pointer : String) (value : Option Value)
  | gateKeyPresent (key : String)
  | gateKeyAbsent (key : String)

inductive LeaseGuard where
  | rejectActive
  | requireActive
  | «match» (token : LeaseToken)
  | invalidateActive
deriving DecidableEq

inductive LifecyclePatch where
  | keep
  | setPending
  | setComplete
  | setFailed
  | purge
deriving DecidableEq

inductive BatchUpdateValue (α : Type) where
  | keep
  | replace (value : α)

def replacementValue {α : Type} : BatchUpdateValue α → α → α
  | .keep, current => current
  | .replace value, _ => value

structure GateKeyDelta where
  add : List String
  remove : List String
  removePrefixes : List String

structure EntityEdit (Value : Type) where
  pointer : String
  operation : EntityEditOperation Value

structure ItemPatch (Priority Value : Type) where
  lifecycle : LifecyclePatch
  priority : BatchUpdateValue (Option Priority)
  notBefore : BatchUpdateValue (Option UtcTimestamp)
  payload : BatchUpdateValue (Option Bytes)
  metadata : BatchUpdateValue (BTreeMap String Bytes)
  gateKeys : GateKeyDelta
  fieldEdits : BTreeMap String (Option Bytes)
  entityEdits : List (EntityEdit Value)

structure AddressedMutation (Priority Value : Type) where
  itemId : ItemId
  expectedItemVersion : Option UInt64
  predicates : List (ItemPredicate Value)
  leaseGuard : LeaseGuard
  patch : ItemPatch Priority Value

inductive ItemSelectorScope where
  | live
  | retained

structure SelectedMutation (Priority Value : Type) where
  selectorId : String
  scope : ItemSelectorScope
  selectorPredicates : List (ItemPredicate Value)
  predicates : List (ItemPredicate Value)
  leaseGuard : LeaseGuard
  patch : ItemPatch Priority Value

inductive ItemMutationOperation (Priority Value : Type) where
  | addressed (entries : List (AddressedMutation Priority Value))
  | selectFirst (clauses : List (SelectedMutation Priority Value))

structure ItemMutationRequest (Priority Value : Type) where
  evaluatedAt : UtcTimestamp
  dryRun : Bool
  gateChanges : List GateChange
  operation : ItemMutationOperation Priority Value

inductive ItemMutationPrecondition where
  | activeLease
  | predicate
deriving DecidableEq

inductive ItemMutationOutcome where
  | updated (itemVersion : UInt64) (state : ItemState)
  | purged
  | wouldUpdate (itemVersion : UInt64) (state : ItemState)
  | wouldPurge
  | noChange
  | notFound
  | conflict (actualVersion : UInt64)
  | staleLease
  | preconditionFailed (precondition : ItemMutationPrecondition)
  | invalid
  | terminal
deriving DecidableEq

structure ItemMutationResult where
  itemId : ItemId
  selectorId : Option String
  outcome : ItemMutationOutcome

structure ItemMutationPlan (Priority Value Typed : Type) where
  results : List ItemMutationResult
  items : List (ResolvedItemMutation Priority Value Typed)
  gateChanges : List GateChange

/-! ## Predicates -/

/-- A lease whose deadline has not passed. -/
def leaseActiveAt (record : ItemRecord Priority Value Typed) (now : UtcTimestamp) : Bool :=
  decide (record.state = .leased) && record.leaseExpiresAt.any fun expires => decide (now < expires)

section Predicates

variable [DecidableEq Value] (documents : Documents Value Typed)
  (record : ItemRecord Priority Value Typed) (evaluatedAt : UtcTimestamp)

def entityPredicateMatches (pointer : String) (expected : Option Value) : Bool :=
  if documents.validPointer pointer then
    let document := documents.rehydrateEntityDocument record.entityDocument record.indexFields
    decide ((document.bind fun document => documents.pointer document pointer) = expected)
  else false

mutual

def mutationPredicateMatches : ItemPredicate Value → Bool
  | .any predicates => anyPredicateMatches predicates
  | .all predicates => allPredicatesMatch predicates
  | .not predicate => !mutationPredicateMatches predicate
  | .stateIn states => states.contains record.state
  | .attemptCountEq expected => record.attemptCount == expected
  | .leaseActive expected => leaseActiveAt record evaluatedAt == expected
  | .notBefore comparison value => record.notBefore.any fun actual => comparison.holds actual value
  | .clientItemKeyEq key => record.clientItemKey == key
  | .groupKeyEq group => record.groupKey == group
  | .fieldEq name value => record.fields[name]? == value
  | .metadataEq name value => record.metadata[name]? == value
  | .entityEq pointer value => entityPredicateMatches documents record pointer value
  | .gateKeyPresent key => record.gateKeys.contains key
  | .gateKeyAbsent key => !record.gateKeys.contains key

def anyPredicateMatches : List (ItemPredicate Value) → Bool
  | [] => false
  | predicate :: rest => mutationPredicateMatches predicate || anyPredicateMatches rest

def allPredicatesMatch : List (ItemPredicate Value) → Bool
  | [] => true
  | predicate :: rest => mutationPredicateMatches predicate && allPredicatesMatch rest

end

end Predicates

/-! ## Planning one record -/

def validGateKey (key : String) : Bool :=
  !key.isEmpty && key.utf8ByteSize ≤ 256 && key.toList.all fun c =>
    c.isAlphanum || ['.', '_', ':', '-'].contains c

def reservedWriteFields : List String :=
  ["item_id", "client_item_key", "item_version", "lifecycle_state", "priority", "attempt_count",
    "payload", "group_key", "not_before", "metadata", "max_attempts", "gate_keys", "cohort_id",
    "lease_token", "lease_expires_at"]

/-- The comparison ignores the case of ASCII letters. -/
def isReservedWriteField (name : String) : Bool :=
  reservedWriteFields.contains (name.map Char.toLower)

def hasPrefixOf (key start : String) : Bool := start.toList.isPrefixOf key.toList

/-- The gate keys after a delta, sorted and without repetitions. -/
def patchedGateKeys (gateKeys : List String) (delta : GateKeyDelta) : List String :=
  let kept := gateKeys.filter fun key => !delta.remove.contains key &&
    !delta.removePrefixes.any (hasPrefixOf key)
  (ExtTreeSet.ofList (kept ++ delta.add) compare : BTreeSet String).toList

section Index

variable (definition : QueueDefinition Priority Value Typed)
  (data : ProjectionData Priority Value Typed)

/-- The holder of a unique key; nothing for a key of a non-unique index. -/
def uniqueHolder (key : IndexKey) : Option ItemId :=
  match data.indexes[key.1]? with
  | some (.unique entries) => entries[key.2]?
  | _ => none

/-- No unique key the item would get is held by another item. The native fields are those of the
document if there is one, else those the item already has. -/
def indexValidateWithEntity (id : ItemId) (fields : BTreeMap String Bytes) (entity : Option Value)
    (exclude : Option ItemId) : EngineResult Unit := do
  let proposed ← match entity with
    | some document =>
      definition.documents.extractIndexFieldsFromEntity definition.typedIndexes document
    | none => .ok ((data.items[id]?.map ItemRecord.indexFields).getD ∅)
  let keys ← definition.recordIndexKeys fields proposed entity
  rejectIf (keys.any fun key =>
    (uniqueHolder data key).any fun holder => holder != id && some holder != exclude) .conflict

end Index

variable [DecidableEq Priority] [DecidableEq Value]
  (definition : QueueDefinition Priority Value Typed)
  (data : ProjectionData Priority Value Typed)

def leaseGuardRefuses (record : ItemRecord Priority Value Typed) (guard : LeaseGuard)
    (now : UtcTimestamp) : Option ItemMutationOutcome :=
  match guard with
  | .rejectActive =>
    if leaseActiveAt record now then some (.preconditionFailed .activeLease) else none
  | .requireActive =>
    if leaseActiveAt record now then none else some (.preconditionFailed .activeLease)
  | .match token =>
    if leaseActiveAt record now && record.leaseToken == some token then none else some .staleLease
  | .invalidateActive => none

/-- The state a patch asks for; a kept lease that is to be invalidated goes back to pending. -/
def patchedState (record : ItemRecord Priority Value Typed) (guard : LeaseGuard) :
    LifecyclePatch → ItemState
  | .keep =>
    if record.state = .leased ∧ guard = .invalidateActive then .pending else record.state
  | .setPending => .pending
  | .setComplete => .complete
  | .setFailed => .failed
  | .purge => record.state

/-- Field edits; a reserved name refuses the patch. -/
def patchedFields (fields : BTreeMap String Bytes) (edits : BTreeMap String (Option Bytes)) :
    Option (BTreeMap String Bytes) :=
  if edits.toList.any fun edit => isReservedWriteField edit.1 then none
  else some (ProjectionData.applyFieldOps fields edits)

def patchedEntity (documents : Documents Value Typed) (edits : List (EntityEdit Value))
    (entity : Option Value) : Option (Option Value) :=
  edits.foldlM (fun entity edit =>
    documents.applyEntityEdit entity edit.pointer edit.operation) entity

def nextItemVersion (version : UInt64) : UInt64 := ProjectionData.seqAfter version

/-- Resolve the values of a patch that keeps its record; the refusals of the source are the empty
result. -/
def resolveValues (record : ItemRecord Priority Value Typed) (guard : LeaseGuard)
    (patch : ItemPatch Priority Value) (evaluatedAt : UtcTimestamp) :
    Option (Bool × ResolvedItemValues Priority Value Typed) := do
  let state := patchedState record guard patch.lifecycle
  let priority := replacementValue patch.priority record.priority
  if priority.any fun priority => !definition.priorityOfKind priority then none
  let notBefore := replacementValue patch.notBefore record.notBefore
  let payload := replacementValue patch.payload record.payload
  let metadata := replacementValue patch.metadata record.metadata
  if patch.gateKeys.removePrefixes.any String.isEmpty then none
  let gateKeys := patchedGateKeys record.gateKeys patch.gateKeys
  if gateKeys.any (fun key => !validGateKey key) ||
      (!gateKeys.isEmpty && decide (definition.gateKeyPolicy ≠ .dynamic)) ||
      definition.maxGateKeysPerItem.any (fun limit => decide (limit.toNat < gateKeys.length)) then
    none
  let fields ← patchedFields record.fields patch.fieldEdits
  let original :=
    if patch.entityEdits.isEmpty then record.entityDocument
    else definition.documents.rehydrateEntityDocument record.entityDocument record.indexFields
  let entity ← patchedEntity definition.documents patch.entityEdits original
  if (indexValidateWithEntity definition data record.itemId fields entity none).toOption.isNone then
    none
  let invalidateLease := decide (record.state = .leased) &&
    (decide (guard = .invalidateActive) || decide (state ≠ .leased))
  let changed := decide (state ≠ record.state) || decide (priority ≠ record.priority) ||
    decide (notBefore ≠ record.notBefore) || decide (payload ≠ record.payload) ||
    decide (metadata ≠ record.metadata) || decide (gateKeys ≠ record.gateKeys) ||
    decide (fields ≠ record.fields) || decide (entity ≠ original) || invalidateLease
  let indexFields := match entity with
    | some document =>
      (definition.documents.extractIndexFieldsFromEntity definition.typedIndexes document).toOption
        |>.getD record.indexFields
    | none => if patch.entityEdits.isEmpty then record.indexFields else ∅
  some (changed,
    { state := state
      itemVersion := nextItemVersion record.itemVersion
      priority := priority
      notBefore := notBefore
      eligibleSince :=
        if state = .pending ∧ (notBefore ≠ record.notBefore ∨ record.state ≠ .pending) then
          max (notBefore.getD evaluatedAt) evaluatedAt
        else record.eligibleSince
      payload := payload
      fields := fields
      metadata := metadata
      gateKeys := gateKeys
      indexFields := indexFields
      entityDocument := entity
      invalidateLease := invalidateLease })

def planRecordMutation (record : ItemRecord Priority Value Typed) (guard : LeaseGuard)
    (patch : ItemPatch Priority Value) (evaluatedAt : UtcTimestamp) (dryRun : Bool) :
    ItemMutationOutcome × Option (ResolvedItemMutation Priority Value Typed) :=
  match leaseGuardRefuses record guard evaluatedAt with
  | some refusal => (refusal, none)
  | none =>
    if record.state.isTerminal &&
        !decide (patch.lifecycle ∈ [.keep, .setPending, LifecyclePatch.purge]) then
      (.terminal, none)
    else if patch.lifecycle = .purge then
      if dryRun then (.wouldPurge, none) else (.purged, some ⟨record.itemId, .purge⟩)
    else if leaseActiveAt record evaluatedAt &&
        decide (patchedState record guard patch.lifecycle ≠ .leased) &&
        decide (guard = .rejectActive) then
      (.preconditionFailed .activeLease, none)
    else match resolveValues definition data record guard patch evaluatedAt with
      | none => (.invalid, none)
      | some (false, _) => (.noChange, none)
      | some (true, values) =>
        if dryRun then (.wouldUpdate values.itemVersion values.state, none)
        else (.updated values.itemVersion values.state, some ⟨record.itemId,
          if values.payload = record.payload then
            .replaceKeepingPayload { values with payload := none }
          else .replace values⟩)

/-! ## Planning a request -/

/-- Decide one addressed entry. An id that was already named is refused. -/
def planAddressed (request : ItemMutationRequest Priority Value) (seen : List ItemId)
    (entry : AddressedMutation Priority Value) :
    ItemMutationOutcome × Option (ResolvedItemMutation Priority Value Typed) :=
  if seen.contains entry.itemId then (.invalid, none)
  else match data.items[entry.itemId]? with
    | none => (.notFound, none)
    | some record =>
      if entry.expectedItemVersion.any fun expected => expected != record.itemVersion then
        (.conflict record.itemVersion, none)
      else if entry.predicates.all
          (mutationPredicateMatches definition.documents record request.evaluatedAt) then
        planRecordMutation definition data record entry.leaseGuard entry.patch request.evaluatedAt
          request.dryRun
      else (.preconditionFailed .predicate, none)

/-- The first clause whose selector matches a record. -/
def winningClause (request : ItemMutationRequest Priority Value)
    (clauses : List (SelectedMutation Priority Value)) (record : ItemRecord Priority Value Typed) :
    Option (SelectedMutation Priority Value) :=
  clauses.find? fun clause =>
    (match clause.scope with
      | .live => !record.superseded && !record.state.isTerminal
      | .retained => !record.superseded) &&
    clause.selectorPredicates.all
      (mutationPredicateMatches definition.documents record request.evaluatedAt)

def planSelected (request : ItemMutationRequest Priority Value)
    (clause : SelectedMutation Priority Value) (record : ItemRecord Priority Value Typed) :
    ItemMutationOutcome × Option (ResolvedItemMutation Priority Value Typed) :=
  if clause.predicates.all
      (mutationPredicateMatches definition.documents record request.evaluatedAt) then
    planRecordMutation definition data record clause.leaseGuard clause.patch request.evaluatedAt
      request.dryRun
  else (.preconditionFailed .predicate, none)

/-- Records by sequence, then id. -/
def recordLe (a b : ItemRecord Priority Value Typed) : Bool :=
  (compare (a.createdSeq, a.itemId) (b.createdSeq, b.itemId)).isLE

/-- Results and resolved mutations in the order of the entries, with the ids named so far. -/
def planEntries (request : ItemMutationRequest Priority Value) :
    List ItemId → List (AddressedMutation Priority Value) →
      List (ItemMutationResult × Option (ResolvedItemMutation Priority Value Typed))
  | _, [] => []
  | seen, entry :: rest =>
    let planned := planAddressed definition data request seen entry
    (⟨entry.itemId, none, planned.1⟩, planned.2) ::
      planEntries request (entry.itemId :: seen) rest

def planRecords (request : ItemMutationRequest Priority Value)
    (clauses : List (SelectedMutation Priority Value)) :
    List (ItemMutationResult × Option (ResolvedItemMutation Priority Value Typed)) :=
  ((data.items.toList.map Prod.snd).mergeSort recordLe).filterMap fun record =>
    (winningClause definition request clauses record).map fun clause =>
      let planned := planSelected definition data request clause record
      (⟨record.itemId, some clause.selectorId, planned.1⟩, planned.2)

def planOperation (request : ItemMutationRequest Priority Value) :
    List (ItemMutationResult × Option (ResolvedItemMutation Priority Value Typed)) :=
  match request.operation with
  | .addressed entries => planEntries definition data request [] entries
  | .selectFirst clauses => planRecords definition data request clauses

/-- The complete values a mutation writes, if it keeps the record. -/
def ResolvedItemMutation.replacementValues (mutation : ResolvedItemMutation Priority Value Typed) :
    Option (ResolvedItemValues Priority Value Typed) :=
  match mutation.action with
  | .purge => none
  | .replace values => some values
  | .replaceKeepingPayload values => some values

instance : Ord IndexKey := lexOrd

instance : TransOrd IndexKey := inferInstanceAs (@TransOrd _ lexOrd)

instance : LawfulEqOrd IndexKey := inferInstanceAs (@LawfulEqOrd _ lexOrd)

def stageUniqueKeys (id : ItemId) (keys : List IndexKey) (batch : BTreeMap IndexKey ItemId) :
    EngineResult (BTreeMap IndexKey ItemId) :=
  keys.foldlM (fun batch key =>
    if data.indexes.kind key.1 = some true then do
      rejectIf (batch[key]?.any fun other => other != id) .conflict
      .ok (batch.insert key id)
    else .ok batch) batch

/-- Siblings must not claim one unique key. -/
def stageMutation (batch : BTreeMap IndexKey ItemId)
    (mutation : ResolvedItemMutation Priority Value Typed) :
    EngineResult (BTreeMap IndexKey ItemId) :=
  match mutation.replacementValues with
  | none => .ok batch
  | some values => do
    let keys ← definition.recordIndexKeys values.fields values.indexFields values.entityDocument
    stageUniqueKeys data mutation.itemId keys batch

def requestGateKeys (changes : List GateChange) : BTreeSet String :=
  ExtTreeSet.ofList (changes.flatMap GateChange.gateKeys) compare

def planItemMutationUnvalidated (request : ItemMutationRequest Priority Value) :
    EngineResult (ItemMutationPlan Priority Value Typed) := do
  let planned := planOperation definition data request
  let commands := planned.filterMap Prod.snd
  let gateKeys := requestGateKeys request.gateChanges
  rejectIf ((!gateKeys.isEmpty && decide (definition.gateKeyPolicy ≠ .dynamic)) ||
    definition.maxGatesPerRequest.any (fun limit => decide (limit.toNat < gateKeys.size)))
    (.invalid "gate changes violate queue policy")
  rejectIf (request.gateChanges.any fun change => change.gateKeys.any fun key => !validGateKey key)
    (.invalid "invalid gate key")
  let _ ← commands.foldlM (stageMutation definition data) ∅
  .ok ⟨planned.map Prod.fst, commands, request.gateChanges⟩

/-- The plan of a request; unless it is a dry run it has been applied to a copy. -/
def planItemMutation (request : ItemMutationRequest Priority Value) :
    EngineResult (ItemMutationPlan Priority Value Typed) := do
  let plan ← planItemMutationUnvalidated definition data request
  if request.dryRun then .ok plan
  else match (data.applyCommandAt definition ⟨none, none⟩
      (.mutateItems plan.items plan.gateChanges)).error with
    | some e => .error e
    | none => .ok plan

end Projection
