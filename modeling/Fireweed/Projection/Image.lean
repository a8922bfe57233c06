import Fireweed.Projection.Data

/-!
# Reading the projection, exporting it and rebuilding it

The selections and lookups the ports are built on, and the portable image: the
records alone, from which a new projection derives everything else.
-/

namespace Projection

open BTree Checked Domain Engine Std

variable {Priority Value Typed : Type}

namespace ProjectionData

variable (definition : QueueDefinition Priority Value Typed)
  (data : ProjectionData Priority Value Typed)

/-! ## Queries -/

/-- How far a claim may stand from its strict place. -/
def rankBound : UInt32 :=
  match definition.orderingMode with
  | .boundedRelaxed => definition.maxRankError
  | .strict => 0

def eligibleCandidates (now : UtcTimestamp) (max : Nat) : List ItemId :=
  if data.paused then []
  else if rankBound definition = 0 then data.eligible.strictCandidates now max
  else if max = 0 then []
  else data.eligible.relaxedCandidates now max (rankBound definition)

/-- The item of a client key: an explicit key from the key map, a default key by reading it as an
item id. -/
def itemIdForClientKey (key : ClientItemKey) : Option ItemId :=
  match data.byKey[key]? with
  | some id => some id
  | none =>
    match ItemId.parse key with
    | none => none
    | some id =>
      match data.items[id]? with
      | some record => if record.superseded then none else some id
      | none => none

def lookupByKey (key : ClientItemKey) : Option ItemId := data.itemIdForClientKey key

def itemState (id : ItemId) : Option ItemState := data.items[id]?.map ItemRecord.state

end ProjectionData

/-! ## Images -/

structure ProjectionImageItem (Priority Value Typed : Type) where
  itemId : ItemId
  clientItemKey : ClientItemKey
  priority : Option Priority
  notBefore : Option UtcTimestamp
  eligibleSince : Option UtcTimestamp
  groupKey : Option GroupKey
  cohortSize : Option UInt64
  payload : Option Bytes
  fields : BTreeMap String Bytes
  metadata : BTreeMap String Bytes
  gateKeys : List String
  indexFields : IndexFields Typed
  entityDocument : Option Value
  state : ItemState
  itemVersion : UInt64
  attemptCount : UInt32
  maxAttempts : UInt32
  createdSeq : UInt64
  leaseToken : Option LeaseToken
  leaseExpiresAt : Option UtcTimestamp
  leaseIsCohort : Bool
  fenced : Bool
  superseded : Bool
  terminalAt : Option UtcTimestamp
  terminalPosition : Option CommandPosition

def ProjectionImageItem.ofRecord (record : ItemRecord Priority Value Typed) :
    ProjectionImageItem Priority Value Typed where
  itemId := record.itemId
  clientItemKey := record.clientItemKey
  priority := record.priority
  notBefore := record.notBefore
  eligibleSince := some record.eligibleSince
  groupKey := record.groupKey
  cohortSize := record.cohortSize
  payload := record.payload
  fields := record.fields
  metadata := record.metadata
  gateKeys := record.gateKeys
  indexFields := record.indexFields
  entityDocument := record.entityDocument
  state := record.state
  itemVersion := record.itemVersion
  attemptCount := record.attemptCount
  maxAttempts := record.maxAttempts
  createdSeq := record.createdSeq
  leaseToken := record.leaseToken
  leaseExpiresAt := record.leaseExpiresAt
  leaseIsCohort := record.leaseIsCohort
  fenced := record.fenced
  superseded := record.superseded
  terminalAt := record.terminalAt
  terminalPosition := record.terminalPosition

/-- The record of an image item. A document that was left out because the native fields carry it is
made again. -/
def ProjectionImageItem.toRecord (documents : Documents Value Typed)
    (item : ProjectionImageItem Priority Value Typed) : ItemRecord Priority Value Typed where
  itemId := item.itemId
  explicitClientItemKey := explicitClientItemKey item.itemId item.clientItemKey
  priority := item.priority
  notBefore := item.notBefore
  eligibleSince := (item.eligibleSince.or item.notBefore).getD epoch
  groupKey := item.groupKey
  cohortSize := item.cohortSize
  payload := item.payload
  fields := item.fields
  metadata := item.metadata
  gateKeys := item.gateKeys
  indexFields := item.indexFields
  entityDocument := documents.rehydrateEntityDocument item.entityDocument item.indexFields
  state := item.state
  itemVersion := item.itemVersion
  attemptCount := item.attemptCount
  maxAttempts := item.maxAttempts
  createdSeq := item.createdSeq
  leaseToken := item.leaseToken
  leaseExpiresAt := item.leaseExpiresAt
  leaseIsCohort := item.leaseIsCohort
  fenced := item.fenced
  superseded := item.superseded
  terminalAt := item.terminalAt
  terminalPosition := item.terminalPosition

structure ProjectionImage (Priority Value Typed : Type) where
  paused : Bool
  pauseDrainIntake : Bool
  blockedGates : BTreeSet String
  nextSeq : UInt64
  items : List (ProjectionImageItem Priority Value Typed)
  metrics : QueueMetrics

/-- Image items by sequence, then id. -/
def imageItemLe (a b : ProjectionImageItem Priority Value Typed) : Bool :=
  (compare (a.createdSeq, a.itemId) (b.createdSeq, b.itemId)).isLE

namespace ProjectionData

def toImage (data : ProjectionData Priority Value Typed) :
    ProjectionImage Priority Value Typed where
  paused := data.paused
  pauseDrainIntake := data.pauseDrainIntake
  blockedGates := data.blockedGates
  nextSeq := data.nextSeq
  items := (data.items.toList.map fun entry => ProjectionImageItem.ofRecord entry.2).mergeSort
    imageItemLe
  metrics := data.metrics

variable (definition : QueueDefinition Priority Value Typed)

/-- The lease indexes with the lease of a restored record: registered under its token if it carries
one, and under its expiry if it is an ordinary lease that carries one. -/
def restoreLease (leases : LeaseIndexes) (record : ItemRecord Priority Value Typed) :
    LeaseIndexes :=
  if record.state = .leased ∧ record.superseded = false then
    let registered := match record.leaseToken with
      | some token => leases.grant record.itemId token
      | none => leases
    match record.leaseIsCohort, record.leaseExpiresAt with
    | false, some expires => registered.addOrdinaryLease expires record.itemId
    | _, _ => registered
  else leases

/-- The successor of a sequence number, saturating. -/
def seqAfter (seq : UInt64) : UInt64 := if seq = 18446744073709551615 then seq else seq + 1

/-- The projection with one more record of an image, which has some keys. -/
def restored (data : ProjectionData Priority Value Typed)
    (record : ItemRecord Priority Value Typed) (keys : List IndexKey) :
    ProjectionData Priority Value Typed :=
  let id := record.itemId
  { data with
    gateMembers := record.gateKeys.foldl (fun members key => members.add key id) data.gateMembers
    byKey := match record.superseded, record.explicitClientItemKey with
      | false, some key => data.byKey.insert key id
      | _, _ => data.byKey
    indexes :=
      if record.superseded then data.indexes else data.indexes.insertKeysInto id keys
    claimIndexes :=
      if record.superseded = false ∧ record.state = .pending then
        data.claimIndexes.insertKeysInto id keys
      else data.claimIndexes
    framedIndexKeys :=
      if record.superseded then data.framedIndexKeys else data.framedIndexKeys.insert id keys
    eligible :=
      if isEligible data.blockedGates record then
        data.eligible.insert definition.prioritySort record data.items
      else data.eligible
    leases := restoreLease data.leases record
    metrics := if record.superseded then data.metrics else data.metrics.inc record.state
    nextSeq := max data.nextSeq (seqAfter record.createdSeq)
    items := data.items.insert id record }

/-- Enter one record of an image. -/
def restore (data : ProjectionData Priority Value Typed)
    (record : ItemRecord Priority Value Typed) :
    EngineResult (ProjectionData Priority Value Typed) := do
  let keys ← if record.superseded then .ok [] else definition.recordEntityIndexKeys record
  .ok (data.restored definition record keys)

def fromImage (image : ProjectionImage Priority Value Typed) :
    EngineResult (ProjectionData Priority Value Typed) :=
  (image.items.map (ProjectionImageItem.toRecord definition.documents)).foldlM (restore definition)
    { new definition with
      paused := image.paused
      pauseDrainIntake := image.pauseDrainIntake
      blockedGates := image.blockedGates
      nextSeq := image.nextSeq }

end ProjectionData

end Projection
