import Fireweed.Scripts
import Fireweed.Projection.Eligibility
import Fireweed.Projection.SecondaryIndexes

/-!
# The queue projection

The resident items of a queue and everything derived from them: the eligibility
index, the lease indexes, the client keys, the counters, the gate memberships and
the secondary indexes. A command is a script of edits, one for each item it
names; an edit adjusts the derived structures by hand. A failing edit stops the
command and leaves behind what was already changed.
-/

namespace Projection

open BTree Domain Engine Scripts Std

variable {Priority Value Typed : Type}

/-! ## Commands -/

structure PushItem (Priority Value Typed : Type) where
  clientItemKey : ClientItemKey
  itemId : ItemId
  priority : Option Priority
  notBefore : Option UtcTimestamp
  groupKey : Option GroupKey
  maxAttempts : UInt32
  cohortSize : Option UInt64
  payload : Option Bytes
  fields : BTreeMap String Bytes
  metadata : BTreeMap String Bytes
  gateKeys : List String
  indexFields : IndexFields Typed
  entityDocument : Option Value

/-- Leave a value or set it; setting nothing clears it. -/
inductive ScheduleUpdate (α : Type) where
  | keep
  | set (value : Option α)

namespace ScheduleUpdate

def isSet {α : Type} : ScheduleUpdate α → Bool
  | keep => false
  | set _ => true

def apply {α : Type} : ScheduleUpdate α → Option α → Option α
  | keep, current => current
  | set value, _ => value

end ScheduleUpdate

structure UpdateFieldsCommand (Priority Value : Type) where
  itemId : ItemId
  fieldOps : BTreeMap String (Option Bytes)
  payload : ScheduleUpdate Bytes
  setPriority : ScheduleUpdate Priority
  setNotBefore : ScheduleUpdate UtcTimestamp
  setEntityDocument : Option Value
  setFields : Option (BTreeMap String Bytes)
  setMetadata : Option (BTreeMap String Bytes)
  setGateKeys : Option (List String)
  api001Batch : Bool

structure ResolvedItemValues (Priority Value Typed : Type) where
  state : ItemState
  itemVersion : UInt64
  priority : Option Priority
  notBefore : Option UtcTimestamp
  eligibleSince : UtcTimestamp
  payload : Option Bytes
  fields : BTreeMap String Bytes
  metadata : BTreeMap String Bytes
  gateKeys : List String
  indexFields : IndexFields Typed
  entityDocument : Option Value
  invalidateLease : Bool

inductive ResolvedItemMutationAction (Priority Value Typed : Type) where
  | purge
  | replace (values : ResolvedItemValues Priority Value Typed)
  | replaceKeepingPayload (values : ResolvedItemValues Priority Value Typed)

structure ResolvedItemMutation (Priority Value Typed : Type) where
  itemId : ItemId
  action : ResolvedItemMutationAction Priority Value Typed

structure GateChange where
  gateKeys : List String
  blocked : Bool

def GateChange.applyTo (change : GateChange) (gates : BTreeSet String) : BTreeSet String :=
  change.gateKeys.foldl
    (fun gates key => if change.blocked then gates.insert key else gates.erase key) gates

inductive FinalizeKind where
  | complete
  | fail
  | retry
  | release
  | rearm
deriving DecidableEq

structure FinalizeOutcome where
  itemId : ItemId
  kind : FinalizeKind
  notBefore : Option UtcTimestamp

inductive QueueCommand (Priority Value Typed : Type) where
  | createQueue
  | push (items : List (PushItem Priority Value Typed))
  | claim (itemIds : List ItemId) (leaseToken : LeaseToken) (leaseExpiresAt : UtcTimestamp)
  | cohortClaim (itemIds : List ItemId) (leaseToken : LeaseToken) (leaseExpiresAt : UtcTimestamp)
  | renewLease (itemIds : List ItemId) (leaseExpiresAt : UtcTimestamp)
  | cohortRenewLease
  | reassignLease (itemIds : List ItemId) (leaseToken : LeaseToken) (leaseExpiresAt : UtcTimestamp)
  | finalize (outcomes : List FinalizeOutcome)
  | cohortFinalize
  | replacePending (clientItemKey : ClientItemKey) (supersededItemId : ItemId)
      (replacement : PushItem Priority Value Typed)
  | updateFields (update : UpdateFieldsCommand Priority Value)
  | updateFieldsBatch (updates : List (UpdateFieldsCommand Priority Value))
  | mutateItems (items : List (ResolvedItemMutation Priority Value Typed))
      (gateChanges : List GateChange)
  | leaseExpired (itemIds : List ItemId)
  | cohortExpired (groupKey : GroupKey)
  | fenceLease (itemIds : List ItemId)
  | unfenceLease (itemIds : List ItemId)
  | pauseQueue (drainIntake : Bool)
  | resumeQueue
  | purgeItems (itemIds : List ItemId)
  | setGates (change : GateChange)
  | writeSideRecords
  | advanceInstanceFence

/-- The creation time and log position of the command being applied, where known. -/
structure Stamp where
  time : Option UtcTimestamp
  position : Option CommandPosition

/-! ## Derived structures -/

structure LeaseIndexes where
  leasedIds : BTreeSet ItemId
  leasedByConsumer : Buckets LeaseToken ItemId
  ordinaryLeasesByExpiry : Buckets UtcTimestamp ItemId

namespace LeaseIndexes

def empty : LeaseIndexes := ⟨∅, .empty, .empty⟩

/-- Register a lease under its consumer. -/
def grant (leases : LeaseIndexes) (id : ItemId) (token : LeaseToken) : LeaseIndexes :=
  { leases with
    leasedIds := leases.leasedIds.insert id
    leasedByConsumer := leases.leasedByConsumer.add token id }

def addOrdinaryLease (leases : LeaseIndexes) (expires : UtcTimestamp) (id : ItemId) :
    LeaseIndexes :=
  { leases with ordinaryLeasesByExpiry := leases.ordinaryLeasesByExpiry.add expires id }

def removeOrdinaryLease (leases : LeaseIndexes) (expires : Option UtcTimestamp) (id : ItemId) :
    LeaseIndexes :=
  match expires with
  | some expires =>
    { leases with ordinaryLeasesByExpiry := leases.ordinaryLeasesByExpiry.drop expires id }
  | none => leases

def removeConsumer (leases : LeaseIndexes) (token : Option LeaseToken) (id : ItemId) :
    LeaseIndexes :=
  match token with
  | some token => { leases with leasedByConsumer := leases.leasedByConsumer.drop token id }
  | none => leases

def removeLeasedId (leases : LeaseIndexes) (id : ItemId) : LeaseIndexes :=
  { leases with leasedIds := leases.leasedIds.erase id }

end LeaseIndexes

structure QueueMetrics where
  pending : Nat
  leased : Nat
  complete : Nat
  failed : Nat
  residentTerminalCount : Nat
deriving DecidableEq

namespace QueueMetrics

def zero : QueueMetrics := ⟨0, 0, 0, 0, 0⟩

def inc (metrics : QueueMetrics) : ItemState → QueueMetrics
  | .pending => { metrics with pending := metrics.pending + 1 }
  | .leased => { metrics with leased := metrics.leased + 1 }
  | .complete =>
    { metrics with
      complete := metrics.complete + 1
      residentTerminalCount := metrics.residentTerminalCount + 1 }
  | .failed =>
    { metrics with
      failed := metrics.failed + 1
      residentTerminalCount := metrics.residentTerminalCount + 1 }

/-- Decrements saturate at zero. -/
def dec (metrics : QueueMetrics) : ItemState → QueueMetrics
  | .pending => { metrics with pending := metrics.pending - 1 }
  | .leased => { metrics with leased := metrics.leased - 1 }
  | .complete =>
    { metrics with
      complete := metrics.complete - 1
      residentTerminalCount := metrics.residentTerminalCount - 1 }
  | .failed =>
    { metrics with
      failed := metrics.failed - 1
      residentTerminalCount := metrics.residentTerminalCount - 1 }

def transition (metrics : QueueMetrics) (old new : ItemState) : QueueMetrics :=
  if old ≠ new then (metrics.dec old).inc new else metrics

end QueueMetrics

def replaceGateMemberships (members : Buckets String ItemId) (id : ItemId) (old new : List String) :
    Buckets String ItemId :=
  let kept := (old.filter fun key => !new.contains key).foldl (fun members key =>
    members.drop key id) members
  (new.filter fun key => !old.contains key).foldl (fun members key => members.add key id) kept

structure ProjectionData (Priority Value Typed : Type) where
  items : BTreeMap ItemId (ItemRecord Priority Value Typed)
  leases : LeaseIndexes
  byKey : BTreeMap ClientItemKey ItemId
  eligible : EligibilityIndex
  metrics : QueueMetrics
  nextSeq : UInt64
  paused : Bool
  pauseDrainIntake : Bool
  blockedGates : BTreeSet String
  gateMembers : Buckets String ItemId
  indexes : IndexFamily
  claimIndexes : IndexFamily
  framedIndexKeys : BTreeMap ItemId (List IndexKey)

/-- A record that the eligibility index should hold. -/
def isEligible (blockedGates : BTreeSet String) (record : ItemRecord Priority Value Typed) : Bool :=
  decide (record.state = .pending) && !record.superseded &&
    !gateKeysBlocked blockedGates record.gateKeys

/-- One empty index for each declaration, a typed one over a legacy one of the same name. -/
def QueueDefinition.emptyIndexes (definition : QueueDefinition Priority Value Typed) :
    IndexFamily :=
  let legacy := definition.secondaryIndexes.foldl
    (fun family spec => family.insert spec.name (emptySecondaryIndex spec.unique)) ∅
  definition.typedIndexes.foldl
    (fun family index => family.insert index.name (emptySecondaryIndex index.declaration.unique))
    legacy

namespace ProjectionData

def new (definition : QueueDefinition Priority Value Typed) :
    ProjectionData Priority Value Typed where
  items := ∅
  leases := .empty
  byKey := ∅
  eligible := .new
  metrics := .zero
  nextSeq := 0
  paused := false
  pauseDrainIntake := false
  blockedGates := ∅
  gateMembers := .empty
  indexes := definition.emptyIndexes
  claimIndexes := definition.emptyIndexes
  framedIndexKeys := ∅

abbrev Applied (Priority Value Typed : Type) :=
  Outcome (ProjectionData Priority Value Typed) EngineError

variable (definition : QueueDefinition Priority Value Typed)
  (data : ProjectionData Priority Value Typed)

/-- The cached keys of an item, else its computed keys, which are then cached. -/
def framedKeysOrCompute (id : ItemId) :
    EngineResult (List IndexKey × BTreeMap ItemId (List IndexKey)) :=
  match data.framedIndexKeys[id]? with
  | some keys => .ok (keys, data.framedIndexKeys)
  | none =>
    match data.items[id]? with
    | none => .error .notFound
    | some record =>
      (definition.recordEntityIndexKeys record).map fun keys =>
        (keys, data.framedIndexKeys.insert id keys)

def pendingRecord (stamp : Stamp) (item : PushItem Priority Value Typed) :
    ItemRecord Priority Value Typed where
  itemId := item.itemId
  explicitClientItemKey := explicitClientItemKey item.itemId item.clientItemKey
  priority := item.priority
  notBefore := item.notBefore
  eligibleSince := item.notBefore.getD (stamp.time.getD epoch)
  groupKey := item.groupKey
  cohortSize := item.cohortSize
  payload := item.payload
  fields := item.fields
  metadata := item.metadata
  gateKeys := item.gateKeys
  indexFields := item.indexFields
  entityDocument := item.entityDocument
  state := .pending
  itemVersion := 1
  attemptCount := 0
  maxAttempts := item.maxAttempts
  createdSeq := data.nextSeq
  leaseToken := none
  leaseExpiresAt := none
  leaseIsCohort := false
  fenced := false
  superseded := false
  terminalAt := none
  terminalPosition := none

/-- The projection while a record enters, before its keys are known. -/
def entering (record : ItemRecord Priority Value Typed) (cleared : EligibilityIndex) :
    ProjectionData Priority Value Typed :=
  let id := record.itemId
  { data with
    nextSeq := data.nextSeq + 1
    eligible :=
      if gateKeysBlocked data.blockedGates record.gateKeys then cleared
      else cleared.insert definition.prioritySort record data.items
    byKey := match record.explicitClientItemKey with
      | some key => data.byKey.insert key id
      | none => data.byKey
    gateMembers := record.gateKeys.foldl (fun members key => members.add key id) data.gateMembers }

def entered (record : ItemRecord Priority Value Typed) (cleared : EligibilityIndex)
    (keys : List IndexKey) : ProjectionData Priority Value Typed :=
  let id := record.itemId
  { data.entering definition record cleared with
    indexes := data.indexes.insertKeysInto id keys
    claimIndexes := data.claimIndexes.insertKeysInto id keys
    framedIndexKeys := data.framedIndexKeys.insert id keys
    items := data.items.insert id record
    metrics := data.metrics.inc .pending }

/-- Enter a pending item. The index keys are computed only after the eligibility index, the client
key and the gate memberships have been written. -/
def insertPending (stamp : Stamp) (item : PushItem Priority Value Typed) :
    Applied Priority Value Typed :=
  let id := item.itemId
  let record := data.pendingRecord stamp item
  let cleared := match data.items[id]? with
    | some old =>
      if isEligible data.blockedGates old then
        data.eligible.remove (EligibilityIndex.token definition.prioritySort old)
      else data.eligible
    | none => data.eligible
  match definition.recordEntityIndexKeys record with
  | .error e => ⟨data.entering definition record cleared, some e⟩
  | .ok keys => ⟨data.entered definition record cleared keys, none⟩

/-- The record after a lifecycle transition. -/
def enterState (record : ItemRecord Priority Value Typed) (state : ItemState) (stamp : Stamp) :
    ItemRecord Priority Value Typed :=
  { record with
    state := state
    itemVersion := record.itemVersion + 1
    terminalAt :=
      if state.isTerminal then stamp.time
      else if record.state.isTerminal then none else record.terminalAt
    terminalPosition :=
      if state.isTerminal then stamp.position
      else if record.state.isTerminal then none else record.terminalPosition }

/-- The indexes after a lease has ended with the expiry and token its record carried. -/
def endLease (leases : LeaseIndexes) (id : ItemId) (expires : Option UtcTimestamp)
    (token : Option LeaseToken) : LeaseIndexes :=
  ((leases.removeLeasedId id).removeOrdinaryLease expires id).removeConsumer token id

/-- Drive the lifecycle of one item; the claim index holds pending items only. -/
def transition (stamp : Stamp) (id : ItemId) (event : ItemEvent) : Applied Priority Value Typed :=
  match data.items[id]? with
  | none => ⟨data, some .notFound⟩
  | some record =>
    if record.superseded then ⟨data, some .superseded⟩
    else match applyTransition record.state event with
      | none => ⟨data, some (.invalid "illegal lifecycle transition")⟩
      | some state =>
        let entered := enterState record state stamp
        let items := data.items.insert id entered
        let blocked := gateKeysBlocked data.blockedGates record.gateKeys
        let cleared :=
          if record.state = .pending ∧ blocked = false then
            data.eligible.remove (EligibilityIndex.token definition.prioritySort record)
          else data.eligible
        let moved := { data with
          items := items
          leases :=
            if record.state = ItemState.leased ∧ state ≠ ItemState.leased then
              endLease data.leases id record.leaseExpiresAt record.leaseToken
            else data.leases
          eligible :=
            if state = ItemState.pending ∧ blocked = false then
              cleared.insert definition.prioritySort entered items
            else cleared }
        if record.state = .pending ∧ state ≠ .pending then
          match moved.framedKeysOrCompute definition id with
          | .error e => ⟨moved, some e⟩
          | .ok (keys, framed) =>
            ⟨{ moved with
              framedIndexKeys := framed
              claimIndexes := data.claimIndexes.removeKeysFrom id keys
              metrics := data.metrics.transition record.state state }, none⟩
        else if record.state ≠ .pending ∧ state = .pending then
          match moved.framedKeysOrCompute definition id with
          | .error e => ⟨moved, some e⟩
          | .ok (keys, framed) =>
            ⟨{ moved with
              framedIndexKeys := framed
              claimIndexes := data.claimIndexes.insertKeysInto id keys
              metrics := data.metrics.transition record.state state }, none⟩
        else ⟨{ moved with metrics := data.metrics.transition record.state state }, none⟩

/-- Rewrite the record of an item that must be resident. -/
def withRecord (id : ItemId)
    (edit : ItemRecord Priority Value Typed → ProjectionData Priority Value Typed) :
    Applied Priority Value Typed :=
  match data.items[id]? with
  | none => ⟨data, some .notFound⟩
  | some record => ⟨edit record, none⟩

def leasedRecord (record : ItemRecord Priority Value Typed) (token : LeaseToken)
    (expires : UtcTimestamp) (cohort : Bool) : ItemRecord Priority Value Typed :=
  { record with
    leaseToken := some token
    leaseExpiresAt := some expires
    leaseIsCohort := cohort
    attemptCount := record.attemptCount + 1 }

def renewedRecord (record : ItemRecord Priority Value Typed) (expires : UtcTimestamp) :
    ItemRecord Priority Value Typed :=
  { record with leaseExpiresAt := some expires, itemVersion := record.itemVersion + 1 }

def reassignedRecord (record : ItemRecord Priority Value Typed) (token : LeaseToken)
    (expires : UtcTimestamp) : ItemRecord Priority Value Typed :=
  { record with
    leaseToken := some token
    leaseExpiresAt := some expires
    attemptCount := record.attemptCount + 1
    itemVersion := record.itemVersion + 1 }

def renewedLeases (leases : LeaseIndexes) (id : ItemId) (record : ItemRecord Priority Value Typed)
    (expires : UtcTimestamp) : LeaseIndexes :=
  (leases.removeOrdinaryLease record.leaseExpiresAt id).addOrdinaryLease expires id

def reassignedLeases (leases : LeaseIndexes) (id : ItemId)
    (record : ItemRecord Priority Value Typed) (token : LeaseToken) (expires : UtcTimestamp) :
    LeaseIndexes :=
  let moved := (renewedLeases leases id record expires).removeConsumer record.leaseToken id
  { moved with leasedByConsumer := moved.leasedByConsumer.add token id }

/-- A record and its lease indexes are rewritten; nothing else changes. -/
def afterLease (id : ItemId) (record : ItemRecord Priority Value Typed) (leases : LeaseIndexes) :
    ProjectionData Priority Value Typed :=
  { data with items := data.items.insert id record, leases := leases }

def claimItem (id : ItemId) (token : LeaseToken) (expires : UtcTimestamp) :
    Applied Priority Value Typed :=
  (data.transition definition ⟨none, none⟩ id .claim).andThen fun data =>
    data.withRecord id fun record => data.afterLease id (leasedRecord record token expires false)
      ((data.leases.grant id token).addOrdinaryLease expires id)

def cohortClaimItem (id : ItemId) (token : LeaseToken) (expires : UtcTimestamp) :
    Applied Priority Value Typed :=
  (data.transition definition ⟨none, none⟩ id .claim).andThen fun data =>
    data.withRecord id fun record => data.afterLease id (leasedRecord record token expires true)
      (data.leases.grant id token)

/-- The new deadline is entered as that of an ordinary lease, whatever the lease is. -/
def renewLease (id : ItemId) (expires : UtcTimestamp) : Applied Priority Value Typed :=
  data.withRecord id fun record =>
    data.afterLease id (renewedRecord record expires) (renewedLeases data.leases id record expires)

def reassignLease (id : ItemId) (token : LeaseToken) (expires : UtcTimestamp) :
    Applied Priority Value Typed :=
  data.withRecord id fun record => data.afterLease id (reassignedRecord record token expires)
    (reassignedLeases data.leases id record token expires)

/-- A per-key delta: a value is set, an absent one removes the key. -/
def applyFieldOps (fields : BTreeMap String Bytes) (ops : BTreeMap String (Option Bytes)) :
    BTreeMap String Bytes :=
  ops.toList.foldl (fun fields op =>
    match op.2 with
    | some value => fields.insert op.1 value
    | none => fields.erase op.1) fields

/-- Whether an update can change the index keys of its item. -/
def indexInputsChanged (update : UpdateFieldsCommand Priority Value) : Bool :=
  update.setFields.isSome || !update.fieldOps.isEmpty || update.setEntityDocument.isSome

/-- The record after a field update, given its new native index fields. -/
def updatedRecord (stamp : Stamp) (update : UpdateFieldsCommand Priority Value)
    (record : ItemRecord Priority Value Typed) (indexFields : IndexFields Typed) :
    ItemRecord Priority Value Typed :=
  { record with
    fields := applyFieldOps (update.setFields.getD record.fields) update.fieldOps
    payload := update.payload.apply record.payload
    metadata := update.setMetadata.getD record.metadata
    gateKeys := update.setGateKeys.getD record.gateKeys
    indexFields := indexFields
    entityDocument := update.setEntityDocument.or record.entityDocument
    priority := update.setPriority.apply record.priority
    notBefore := update.setNotBefore.apply record.notBefore
    eligibleSince := match update.setNotBefore with
      | .set notBefore =>
        if update.api001Batch then record.eligibleSince
        else
          let now := stamp.time.getD record.eligibleSince
          max (notBefore.getD now) now
      | .keep => record.eligibleSince
    itemVersion := record.itemVersion + 1 }

/-- What an update reads before it writes anything: the old keys, the new native fields and the new
keys. Keys that cannot have changed are left empty. -/
def updateKeys (update : UpdateFieldsCommand Priority Value)
    (record : ItemRecord Priority Value Typed) :
    EngineResult (List IndexKey × IndexFields Typed × List IndexKey) :=
  let readOld : EngineResult (List IndexKey) :=
    if indexInputsChanged update then definition.recordEntityIndexKeys record else .ok []
  let readNative : EngineResult (IndexFields Typed) := match update.setEntityDocument with
    | some document =>
      definition.documents.extractIndexFieldsFromEntity definition.typedIndexes document
    | none => .ok record.indexFields
  let readNew (indexFields : IndexFields Typed) : EngineResult (List IndexKey) :=
    if indexInputsChanged update then
      definition.recordIndexKeys
        (applyFieldOps (update.setFields.getD record.fields) update.fieldOps) indexFields
        (update.setEntityDocument.or record.entityDocument)
    else .ok []
  do
    let oldKeys ← readOld
    let indexFields ← readNative
    let newKeys ← readNew indexFields
    .ok (oldKeys, indexFields, newKeys)

def keysWithout (keys others : List IndexKey) : List IndexKey :=
  keys.filter fun key => !others.contains key

/-- The projection after a record has been updated, given the keys that the update has read and the
new eligibility. -/
def updating (id : ItemId) (record updated : ItemRecord Priority Value Typed)
    (oldKeys newKeys : List IndexKey) (eligible : EligibilityIndex) :
    ProjectionData Priority Value Typed :=
  let removed := keysWithout oldKeys newKeys
  let added := keysWithout newKeys oldKeys
  { data with
    items := data.items.insert id updated
    indexes := (data.indexes.removeKeysFrom id removed).insertKeysInto id added
    claimIndexes :=
      if updated.state = .pending ∧ updated.superseded = false then
        (data.claimIndexes.removeKeysFrom id removed).insertKeysInto id added
      else data.claimIndexes
    framedIndexKeys :=
      if !oldKeys.isEmpty || !newKeys.isEmpty then data.framedIndexKeys.insert id newKeys
      else data.framedIndexKeys
    gateMembers := replaceGateMemberships data.gateMembers id record.gateKeys updated.gateKeys
    eligible }

def applyUpdateFields (stamp : Stamp) (update : UpdateFieldsCommand Priority Value) :
    Applied Priority Value Typed :=
  let id := update.itemId
  match data.items[id]? with
  | none => ⟨data, some .notFound⟩
  | some record =>
    match updateKeys definition update record with
    | .error e => ⟨data, some e⟩
    | .ok (oldKeys, indexFields, newKeys) =>
      let updated := updatedRecord stamp update record indexFields
      let items := data.items.insert id updated
      let eligibilityChanged :=
        update.setPriority.isSet || update.setNotBefore.isSet || update.setGateKeys.isSome
      let rekeyed := eligibilityChanged && decide (record.state = .pending)
      let cleared :=
        if rekeyed && !gateKeysBlocked data.blockedGates record.gateKeys then
          data.eligible.remove (EligibilityIndex.token definition.prioritySort record)
        else data.eligible
      ⟨data.updating id record updated oldKeys newKeys
        (if rekeyed && !gateKeysBlocked data.blockedGates updated.gateKeys then
          cleared.insert definition.prioritySort updated items
        else cleared), none⟩

/-- The projection without a record, apart from its index keys. The client key is removed by key,
not by owner. -/
def withoutRecord (id : ItemId) (record : ItemRecord Priority Value Typed) :
    ProjectionData Priority Value Typed :=
  { data with
    metrics := if record.superseded then data.metrics else data.metrics.dec record.state
    byKey := match record.explicitClientItemKey with
      | some key => data.byKey.erase key
      | none => data.byKey
    gateMembers := replaceGateMemberships data.gateMembers id record.gateKeys []
    eligible :=
      if record.state = ItemState.pending then
        data.eligible.remove (EligibilityIndex.token definition.prioritySort record)
      else data.eligible
    leases :=
      if record.state = ItemState.leased then
        endLease data.leases id record.leaseExpiresAt record.leaseToken
      else data.leases
    framedIndexKeys := data.framedIndexKeys.erase id }

/-- Drop a record that has been taken out of the items. -/
def removeRecord (record : ItemRecord Priority Value Typed) : Applied Priority Value Typed :=
  let id := record.itemId
  let dropped := data.withoutRecord definition id record
  let keys : EngineResult (List IndexKey) := match data.framedIndexKeys[id]? with
    | some keys => .ok keys
    | none => definition.recordEntityIndexKeys record
  match keys with
  | .error e => ⟨dropped, some e⟩
  | .ok keys =>
    ⟨{ dropped with
      indexes := data.indexes.removeKeysFrom id keys
      claimIndexes := data.claimIndexes.removeKeysFrom id keys }, none⟩

def purgeItem (id : ItemId) : Applied Priority Value Typed :=
  match data.items[id]? with
  | none => ⟨data, none⟩
  | some record => { data with items := data.items.erase id }.removeRecord definition record

def leaseEnds (old : ItemRecord Priority Value Typed)
    (values : ResolvedItemValues Priority Value Typed) : Bool :=
  decide (old.state = .leased) && (values.invalidateLease || decide (values.state ≠ .leased))

def mutatedRecord (stamp : Stamp) (keepsPayload : Bool) (old : ItemRecord Priority Value Typed)
    (values : ResolvedItemValues Priority Value Typed) : ItemRecord Priority Value Typed :=
  { old with
    state := values.state
    itemVersion := values.itemVersion
    priority := values.priority
    notBefore := values.notBefore
    eligibleSince := values.eligibleSince
    payload := if keepsPayload then old.payload else values.payload
    fields := values.fields
    metadata := values.metadata
    gateKeys := values.gateKeys
    indexFields := values.indexFields
    entityDocument := values.entityDocument
    leaseToken := if leaseEnds old values then none else old.leaseToken
    leaseExpiresAt := if leaseEnds old values then none else old.leaseExpiresAt
    leaseIsCohort := if leaseEnds old values then false else old.leaseIsCohort
    fenced := if leaseEnds old values then false else old.fenced
    terminalAt := if values.state.isTerminal then stamp.time else none
    terminalPosition := if values.state.isTerminal then stamp.position else none }

def releasedLeases (leases : LeaseIndexes) (id : ItemId) (old : ItemRecord Priority Value Typed)
    (values : ResolvedItemValues Priority Value Typed) : LeaseIndexes :=
  if leaseEnds old values then
    endLease leases id (if old.leaseIsCohort then none else old.leaseExpiresAt) old.leaseToken
  else leases

/-- The projection after resolved values have been written over a record, given the keys of both
and the new eligibility. -/
def replacing (id : ItemId) (values : ResolvedItemValues Priority Value Typed)
    (old record : ItemRecord Priority Value Typed) (oldKeys newKeys : List IndexKey)
    (eligible : EligibilityIndex) : ProjectionData Priority Value Typed :=
  let unclaimed :=
    if old.state = .pending ∧ old.superseded = false then
      data.claimIndexes.removeKeysFrom id oldKeys
    else data.claimIndexes
  { data with
    items := data.items.insert id record
    leases := releasedLeases data.leases id old values
    framedIndexKeys := data.framedIndexKeys.insert id newKeys
    indexes := (data.indexes.removeKeysFrom id (keysWithout oldKeys newKeys)).insertKeysInto id
      (keysWithout newKeys oldKeys)
    claimIndexes :=
      if values.state = .pending then unclaimed.insertKeysInto id newKeys else unclaimed
    gateMembers := replaceGateMemberships data.gateMembers id old.gateKeys values.gateKeys
    metrics := data.metrics.transition old.state values.state
    eligible }

/-- Write resolved values over a record. The counters and the claim index are adjusted whether or
not the record is superseded. -/
def replaceItem (stamp : Stamp) (id : ItemId) (keepsPayload : Bool)
    (values : ResolvedItemValues Priority Value Typed) : Applied Priority Value Typed :=
  match data.items[id]? with
  | none => ⟨data, some .notFound⟩
  | some old =>
    match definition.recordEntityIndexKeys old with
    | .error e => ⟨data, some e⟩
    | .ok oldKeys =>
      let cleared :=
        if isEligible data.blockedGates old then
          data.eligible.remove (EligibilityIndex.token definition.prioritySort old)
        else data.eligible
      match definition.recordIndexKeys values.fields values.indexFields values.entityDocument with
      | .error e =>
        ⟨{ data with eligible := cleared, leases := releasedLeases data.leases id old values },
          some e⟩
      | .ok newKeys =>
        let record := mutatedRecord stamp keepsPayload old values
        let items := data.items.insert id record
        ⟨data.replacing id values old record oldKeys newKeys
          (if isEligible data.blockedGates record then
            cleared.insert definition.prioritySort record items
          else cleared), none⟩

def mutateItem (stamp : Stamp) (mutation : ResolvedItemMutation Priority Value Typed) :
    Applied Priority Value Typed :=
  match mutation.action with
  | .purge => data.purgeItem definition mutation.itemId
  | .replace values => data.replaceItem definition stamp mutation.itemId false values
  | .replaceKeepingPayload values => data.replaceItem definition stamp mutation.itemId true values

/-- Pending live items under the changed gates, each with whether it was blocked. -/
def gateAffected (gateKeys : List String) : List (ItemId × Bool) :=
  let affected : BTreeSet ItemId := ExtTreeSet.ofList
    (gateKeys.flatMap fun key => (data.gateMembers.bucket key).toList) compare
  affected.toList.filterMap fun id =>
    match data.items[id]? with
    | some record =>
      if record.state = .pending ∧ record.superseded = false then
        some (id, gateKeysBlocked data.blockedGates record.gateKeys)
      else none
    | none => none

/-- Re-enter or take out one item after a gate change. -/
def regate (blockedGates : BTreeSet String) (eligible : EligibilityIndex)
    (entry : ItemId × Bool) : EligibilityIndex :=
  match data.items[entry.1]? with
  | none => eligible
  | some record =>
    match entry.2, gateKeysBlocked blockedGates record.gateKeys with
    | false, true => eligible.remove (EligibilityIndex.token definition.prioritySort record)
    | true, false => eligible.insert definition.prioritySort record data.items
    | _, _ => eligible

def applyGateChange (change : GateChange) : Applied Priority Value Typed :=
  let blockedGates := change.applyTo data.blockedGates
  ⟨{ data with
    blockedGates := blockedGates
    eligible := (data.gateAffected change.gateKeys).foldl (data.regate definition blockedGates)
      data.eligible }, none⟩

/-- The lifecycle event of a finalisation. A retry that has used its deliveries fails; a rearm past
the end of the recurrence completes. -/
def finalizeEvent (outcome : FinalizeOutcome) : EngineResult ItemEvent :=
  match outcome.kind with
  | .complete => .ok .finalizeComplete
  | .fail => .ok .finalizeFail
  | .retry =>
    match data.items[outcome.itemId]? with
    | none => .error .notFound
    | some record => .ok (failureEvent record.attemptCount record.maxAttempts)
  | .release => .ok .finalizeRelease
  | .rearm =>
    match definition.recurrence.mode, outcome.notBefore, definition.recurrence.until with
    | .recurring, some notBefore, some until_ =>
      if until_ < notBefore then .ok .finalizeComplete else .ok .finalizeRearm
    | _, _, _ => .ok .finalizeRearm

/-- The record after a finalisation: no lease, and the next occurrence or backoff if it is pending
again. -/
def finalizedRecord (stamp : Stamp) (outcome : FinalizeOutcome)
    (record : ItemRecord Priority Value Typed) : ItemRecord Priority Value Typed :=
  let released := { record with
    leaseToken := none, leaseExpiresAt := none, leaseIsCohort := false, fenced := false }
  if outcome.kind = .rearm ∧ record.state = .pending then
    let now := stamp.time.getD record.eligibleSince
    { released with
      attemptCount := 0
      notBefore := outcome.notBefore.or record.notBefore
      eligibleSince := max (outcome.notBefore.getD now) now }
  else if outcome.kind = .retry ∧ record.state = .pending then
    match outcome.notBefore with
    | some notBefore =>
      { released with notBefore := some notBefore, eligibleSince := notBefore }
    | none => released
  else released

/-- The projection after the second half of a finalisation. -/
def afterFinalize (id : ItemId) (old new : ItemRecord Priority Value Typed) :
    ProjectionData Priority Value Typed :=
  { data with
    items := data.items.insert id new
    eligible :=
      if old.state = .pending ∧ gateKeysBlocked data.blockedGates old.gateKeys = false ∧
          EligibilityIndex.token definition.prioritySort old ≠
            EligibilityIndex.token definition.prioritySort new then
        (data.eligible.remove (EligibilityIndex.token definition.prioritySort old)).insert
          definition.prioritySort new (data.items.insert id new)
      else data.eligible }

def finalizeItem (stamp : Stamp) (outcome : FinalizeOutcome) : Applied Priority Value Typed :=
  match data.finalizeEvent definition outcome with
  | .error e => ⟨data, some e⟩
  | .ok event =>
    (data.transition definition stamp outcome.itemId event).andThen fun data =>
      data.withRecord outcome.itemId fun record => data.afterFinalize definition outcome.itemId
        record (finalizedRecord stamp outcome record)

/-- The projection after the record of an item with some keys has been superseded. -/
def superseding (clientItemKey : ClientItemKey) (id : ItemId)
    (record : ItemRecord Priority Value Typed) (keys : List IndexKey) :
    ProjectionData Priority Value Typed :=
  { data with
    items := data.items.insert id { record with superseded := true }
    eligible :=
      if record.state = .pending then
        data.eligible.remove (EligibilityIndex.token definition.prioritySort record)
      else data.eligible
    metrics := if record.superseded then data.metrics else data.metrics.dec record.state
    indexes := data.indexes.removeKeysFrom id keys
    claimIndexes := data.claimIndexes.removeKeysFrom id keys
    framedIndexKeys := data.framedIndexKeys.erase id
    gateMembers := replaceGateMemberships data.gateMembers id record.gateKeys []
    byKey := data.byKey.erase clientItemKey }

/-- The first half of a pending replacement: the old item leaves every index. -/
def supersedeItem (clientItemKey : ClientItemKey) (id : ItemId) : Applied Priority Value Typed :=
  match data.items[id]? with
  | none =>
    ⟨{ data with
      framedIndexKeys := data.framedIndexKeys.erase id
      byKey := data.byKey.erase clientItemKey }, none⟩
  | some record =>
    match definition.recordEntityIndexKeys record with
    | .error e => ⟨data, some e⟩
    | .ok keys => ⟨data.superseding definition clientItemKey id record keys, none⟩

def expiredRecord (record : ItemRecord Priority Value Typed) : ItemRecord Priority Value Typed :=
  { record with leaseToken := none, leaseExpiresAt := none, leaseIsCohort := false }

def expireLease (id : ItemId) : Applied Priority Value Typed :=
  (data.transition definition ⟨none, none⟩ id .leaseExpired).andThen fun data =>
    data.withRecord id fun record => data.afterLease id (expiredRecord record) data.leases

/-- The record of a member of an expired cohort. -/
def failedRecord (stamp : Stamp) (record : ItemRecord Priority Value Typed) :
    ItemRecord Priority Value Typed :=
  { record with
    state := .failed
    itemVersion := record.itemVersion + 1
    terminalAt := stamp.time
    terminalPosition := stamp.position }

/-- The projection after a member of a cohort has been forced terminal. -/
def afterCohortExpiry (stamp : Stamp) (id : ItemId) (record : ItemRecord Priority Value Typed) :
    ProjectionData Priority Value Typed :=
  { data with
    items := data.items.insert id (failedRecord stamp record)
    eligible :=
      if record.state = .pending then
        data.eligible.remove (EligibilityIndex.token definition.prioritySort record)
      else data.eligible
    metrics := data.metrics.transition record.state .failed
    leases :=
      if record.state = .leased ∧ record.leaseToken.isSome then
        (data.leases.removeLeasedId id).removeConsumer record.leaseToken id
      else data.leases }

/-- Force a member of an incomplete cohort terminal. The claim index and the ordinary expiry index
are not touched. -/
def expireCohortItem (stamp : Stamp) (id : ItemId) : Applied Priority Value Typed :=
  match data.items[id]? with
  | none => ⟨data, none⟩
  | some record => ⟨data.afterCohortExpiry definition stamp id record, none⟩

def fenceItem (id : ItemId) (fenced : Bool) : Applied Priority Value Typed :=
  match data.items[id]? with
  | none => ⟨data, none⟩
  | some record => ⟨data.afterLease id { record with fenced } data.leases, none⟩

end ProjectionData

/-! ## Commands as scripts of edits -/

/-- What a command does to one item, or to the queue as a whole. -/
inductive Edit (Priority Value Typed : Type) where
  | insertPending (item : PushItem Priority Value Typed)
  | claim (id : ItemId) (token : LeaseToken) (expires : UtcTimestamp)
  | cohortClaim (id : ItemId) (token : LeaseToken) (expires : UtcTimestamp)
  | renew (id : ItemId) (expires : UtcTimestamp)
  | reassign (id : ItemId) (token : LeaseToken) (expires : UtcTimestamp)
  | updateFields (update : UpdateFieldsCommand Priority Value)
  | mutate (mutation : ResolvedItemMutation Priority Value Typed)
  | changeGates (change : GateChange)
  | finalize (outcome : FinalizeOutcome)
  | supersede (clientItemKey : ClientItemKey) (id : ItemId)
  | expireLease (id : ItemId)
  | expireCohortItem (id : ItemId)
  | fence (id : ItemId) (fenced : Bool)
  | pause (drainIntake : Bool)
  | resume
  | purge (id : ItemId)

namespace ProjectionData

variable (definition : QueueDefinition Priority Value Typed) (stamp : Stamp)

def applyEdit (data : ProjectionData Priority Value Typed) :
    Edit Priority Value Typed → Applied Priority Value Typed
  | .insertPending item => data.insertPending definition stamp item
  | .claim id token expires => data.claimItem definition id token expires
  | .cohortClaim id token expires => data.cohortClaimItem definition id token expires
  | .renew id expires => data.renewLease id expires
  | .reassign id token expires => data.reassignLease id token expires
  | .updateFields update => data.applyUpdateFields definition stamp update
  | .mutate mutation => data.mutateItem definition stamp mutation
  | .changeGates change => data.applyGateChange definition change
  | .finalize outcome => data.finalizeItem definition stamp outcome
  | .supersede clientItemKey id => data.supersedeItem definition clientItemKey id
  | .expireLease id => data.expireLease definition id
  | .expireCohortItem id => data.expireCohortItem definition stamp id
  | .fence id fenced => data.fenceItem id fenced
  | .pause drainIntake => ⟨{ data with paused := true, pauseDrainIntake := drainIntake }, none⟩
  | .resume => ⟨{ data with paused := false, pauseDrainIntake := false }, none⟩
  | .purge id => data.purgeItem definition id

def cohortMembers (data : ProjectionData Priority Value Typed) (groupKey : GroupKey) :
    List ItemId :=
  (data.items.toList.filter fun entry =>
    decide (entry.2.groupKey = some groupKey) && !entry.2.state.isTerminal).map Prod.fst

def edits (data : ProjectionData Priority Value Typed) :
    QueueCommand Priority Value Typed → List (Edit Priority Value Typed)
  | .push items => items.map .insertPending
  | .claim ids token expires => ids.map fun id => .claim id token expires
  | .cohortClaim ids token expires => ids.map fun id => .cohortClaim id token expires
  | .renewLease ids expires => ids.map fun id => .renew id expires
  | .reassignLease ids token expires => ids.map fun id => .reassign id token expires
  | .finalize outcomes => outcomes.map .finalize
  | .replacePending key superseded replacement =>
    [.supersede key superseded, .insertPending replacement]
  | .updateFields update => [.updateFields update]
  | .updateFieldsBatch updates => updates.map .updateFields
  | .mutateItems items gateChanges => items.map .mutate ++ gateChanges.map .changeGates
  | .leaseExpired ids => ids.map .expireLease
  | .cohortExpired groupKey => (data.cohortMembers groupKey).map .expireCohortItem
  | .fenceLease ids => ids.map fun id => .fence id true
  | .unfenceLease ids => ids.map fun id => .fence id false
  | .pauseQueue drainIntake => [.pause drainIntake]
  | .resumeQueue => [.resume]
  | .purgeItems ids => ids.map .purge
  | .setGates change => [.changeGates change]
  | .createQueue | .cohortRenewLease | .cohortFinalize | .writeSideRecords
  | .advanceInstanceFence => []

def applyCommandAt (data : ProjectionData Priority Value Typed)
    (command : QueueCommand Priority Value Typed) : Applied Priority Value Typed :=
  run (applyEdit definition stamp) data (data.edits command)

end ProjectionData

end Projection
