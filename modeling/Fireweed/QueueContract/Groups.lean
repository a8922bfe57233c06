import Fireweed.QueueAdministration

/-!
# Commit groups and insert requests

The atomic request forms, their receipts, and the envelope checks that admission
runs before a group reaches the planner.
-/

namespace QueueContract

open BTree Checked Postcard QueueAdministration Std

structure AdministrativeCommit where
  intent : AdministrativeIntent
  maxResultBytes : UInt64

structure CommitGroup where
  requestId : String
  claimedUpdates : List ClaimedUpdate
  stateUpdates : List StateUpdate
  workInserts : List NewWork
  workUpdates : List UnclaimedUpdate
  administration : Option AdministrativeCommit

inductive GroupOutcome where
  | requestConflict
  | requestExpired
  | committed (versions : List RecordVersion)
  | rejected (reason : Rejection)
  | administrativeCommitted (versions : List RecordVersion)
      (administration : AdministrativeResult)

structure CommitReceipt where
  requestId : String
  outcome : GroupOutcome

inductive InsertMode where
  | insertOnly
  | upsert
deriving DecidableEq, Repr

structure InsertRequest where
  queue : QueueAddress
  requestId : String
  mode : InsertMode
  items : List NewWork

inductive InsertOutcome where
  | inserted (key : String) (version : UInt64)
  | replaced (key : String) (version : UInt64)
  | rejected (key : String) (reason : Rejection)
deriving DecidableEq

/-- Identities in receipt order; condition-only checks have no output version. -/
def CommitGroup.modifiedRecords (group : CommitGroup) : List (Option String × String) :=
  ((group.claimedUpdates.filter fun u => u.disposition != .check).map fun u => (none, u.key)) ++
  ((group.stateUpdates.filter fun u => u.change != .check).map fun u =>
    (some u.collection, u.key)) ++
  (group.workUpdates.map fun u => (none, u.key)) ++
  (group.workInserts.map fun w => (none, w.key))

/-! ## Wire form -/

instance : Serialize GroupOutcome :=
  ⟨fun
    | .requestConflict => variant 0 []
    | .requestExpired => variant 1 []
    | .committed versions => variant 2 (serialize versions)
    | .rejected reason => variant 3 (serialize reason)
    | .administrativeCommitted versions administration =>
      variant 4 (serialize versions ++ serialize administration)⟩

instance : Serialize CommitReceipt := ⟨fun r => serialize r.requestId ++ serialize r.outcome⟩

instance : Serialize InsertMode :=
  ⟨fun
    | .insertOnly => variant 0 []
    | .upsert => variant 1 []⟩

instance : Serialize InsertRequest :=
  ⟨fun r => serialize r.queue ++ serialize r.requestId ++ serialize r.mode ++ serialize r.items⟩

instance : Serialize InsertOutcome :=
  ⟨fun
    | .inserted key version => variant 0 (serialize key ++ serialize version)
    | .replaced key version => variant 1 (serialize key ++ serialize version)
    | .rejected key reason => variant 2 (serialize key ++ serialize reason)⟩

/-- The five ordinary fields, in their frozen order. -/
def CommitGroup.fingerprintV3 (group : CommitGroup) : List UInt8 :=
  serialize group.requestId ++ serialize group.claimedUpdates ++ serialize group.stateUpdates ++
    serialize group.workInserts ++ serialize group.workUpdates

/-- The accounting form of a group: administration is appended as a bare value. -/
def CommitGroup.accounting (group : CommitGroup) : List UInt8 :=
  match group.administration with
  | none => group.fingerprintV3
  | some admin => group.fingerprintV3 ++ serialize admin.intent ++ serialize admin.maxResultBytes

/-- The borrowed envelope of a batch. -/
def commitEnvelope (queue : QueueAddress) (groups : List CommitGroup) : List UInt8 :=
  serialize queue ++ varint groups.length ++ groups.flatMap CommitGroup.accounting

/-! ## Envelope checks -/

def byteLimit (encoded : List UInt8) (max : UInt64) : QueueResult Unit :=
  rejectIf (decide (encoded.length > max.toNat)) .tooLarge

def insertNew {κ : Type} [Ord κ] [TransOrd κ] (message : String) (seen : BTreeSet κ) (key : κ) :
    QueueResult (BTreeSet κ) :=
  if seen.contains key then .error (invalid message) else .ok (seen.insert key)

def envelope (queue : QueueAddress) (encoded : List UInt8) (limits : QueueLimits) :
    QueueResult Unit := do
  queue.validate
  limits.validate
  byteLimit encoded limits.maxRequestBytes

namespace CommitGroup

def recordCount (group : CommitGroup) : Nat :=
  group.claimedUpdates.length + group.stateUpdates.length + group.workInserts.length +
    group.workUpdates.length

/-- Every addressed record, checks included. -/
def addressed (group : CommitGroup) : List (Option String × String) :=
  (group.claimedUpdates.map fun u => (none, u.key)) ++
  (group.workUpdates.map fun u => (none, u.key)) ++
  (group.workInserts.map fun w => (none, w.key)) ++
  (group.stateUpdates.map fun u => (some u.collection, u.key))

def checkCount (group : CommitGroup) (limits : QueueLimits) : QueueResult Unit :=
  rejectIf ((group.recordCount == 0 && group.administration.isNone) ||
    decide (group.recordCount > limits.maxRecords.toNat)) (invalid "invalid group record count")

def checkResultBytes (group : CommitGroup) (limits : QueueLimits) : QueueResult Unit :=
  rejectIf (group.administration.any fun admin => admin.maxResultBytes == 0 ||
    decide (admin.maxResultBytes > limits.maxResponseBytes)) .tooLarge

/-- One round of the schema-independent group loop. -/
def preflight (limits : QueueLimits) (ids : BTreeSet String) (group : CommitGroup) :
    QueueResult (BTreeSet String) := do
  name group.requestId
  let ids ← insertNew "duplicate group identity" ids group.requestId
  group.checkCount limits
  group.checkResultBytes limits
  forM group.claimedUpdates fun update =>
    rejectIf (update.disposition == .check && update.patch != .empty)
      (invalid "claim check requires an empty patch")
  let _ ← group.addressed.foldlM (insertNew "duplicate record in group") ∅
  byteLimit group.accounting limits.maxGroupBytes
  .ok ids

end CommitGroup

def preflightCommitGroups (queue : QueueAddress) (groups : List CommitGroup)
    (limits : QueueLimits) : QueueResult Unit := do
  envelope queue (commitEnvelope queue groups) limits
  rejectIf (groups.isEmpty || decide (groups.length > limits.maxGroups.toNat))
    (invalid "invalid commit group count")
  let _ ← groups.foldlM (CommitGroup.preflight limits) ∅
  .ok ()

section Validate

variable (schema : QueueSchema) (limits : QueueLimits)

/-- A renewal must be a lease duration, and a retry time must not contradict the patch. -/
def checkDisposition (update : ClaimedUpdate) : QueueResult Unit :=
  match update.disposition with
  | .retain (some n) => leaseDuration n
  | .retryAt time =>
    rejectIf (update.patch.availableAt.any (· != time)) (invalid "conflicting retry times")
  | _ => .ok ()

def validateClaimed (keys : BTreeSet (Option String × String)) (update : ClaimedUpdate) :
    QueueResult (BTreeSet (Option String × String)) := do
  name update.key
  let keys ← insertNew "duplicate record in group" keys (none, update.key)
  rejectIf (update.lease.token.isEmpty || update.expectedVersion == 0)
    (invalid "invalid claim credential")
  checkDisposition update
  patch update.patch schema limits
  .ok keys

def validateInsert (keys : BTreeSet (Option String × String)) (item : NewWork) :
    QueueResult (BTreeSet (Option String × String)) := do
  let keys ← insertNew "duplicate record in group" keys (none, item.key)
  work item schema limits
  .ok keys

def validateChange (update : UnclaimedUpdate) : QueueResult Unit :=
  match update.change with
  | .patch value => patch value schema limits
  | .administrative value _ _ => patch value schema limits
  | .replace value => do
    rejectIf (value.key != update.key) (invalid "replacement key mismatch")
    work value schema limits
  | .delete => .ok ()

def validateUnclaimed (keys : BTreeSet (Option String × String)) (update : UnclaimedUpdate) :
    QueueResult (BTreeSet (Option String × String)) := do
  name update.key
  let keys ← insertNew "duplicate record in group" keys (none, update.key)
  expect update.expect
  rejectIf (update.expect == .absent)
    (invalid "unclaimed update requires existing version; creation uses work_inserts")
  validateChange schema limits update
  .ok keys

def validateStateChange (definition : CollectionDefinition) (change : StateChange) :
    QueueResult Unit :=
  match change with
  | .put values value => do
    fields values definition
    rejectIf (decide (value.length > limits.maxStateBytes.toNat)) .tooLarge
  | _ => .ok ()

def validateState (keys : BTreeSet (Option String × String)) (update : StateUpdate) :
    QueueResult (BTreeSet (Option String × String)) := do
  name update.key
  expect update.expect
  match schema.state[update.collection]? with
  | none => .error (invalid "undeclared state collection")
  | some definition => do
    let keys ← insertNew "duplicate record in group" keys (some update.collection, update.key)
    validateStateChange limits definition update.change
    .ok keys

def validateAdministration (group : CommitGroup) : QueueResult Unit :=
  match group.administration with
  | some admin => admin.intent.validate schema limits
  | none => .ok ()

/-- One round of the group loop of the full check. -/
def CommitGroup.validate (identities : BTreeSet String) (group : CommitGroup) :
    QueueResult (BTreeSet String) := do
  name group.requestId
  let identities ← insertNew "duplicate group identity" identities group.requestId
  group.checkCount limits
  validateAdministration schema limits group
  let keys ← group.claimedUpdates.foldlM (validateClaimed schema limits) ∅
  let keys ← group.workInserts.foldlM (validateInsert schema limits) keys
  let keys ← group.workUpdates.foldlM (validateUnclaimed schema limits) keys
  let _ ← group.stateUpdates.foldlM (validateState schema limits) keys
  group.checkResultBytes limits
  byteLimit group.accounting limits.maxGroupBytes
  .ok identities

/-- Rejection messages are capped at this length. -/
def longestRejection : Rejection := .invalid (String.ofList (List.replicate 256 'x'))

/-- The response bytes reserved for one group: the longer of its largest success and
its largest rejection, or the declared bound of an administrative result. -/
def CommitGroup.responseBytes (group : CommitGroup) : Nat :=
  match group.administration with
  | some admin => admin.maxResultBytes.toNat
  | none =>
    let versions := group.modifiedRecords.map fun id =>
      { collection := id.1, key := id.2, version := 18446744073709551615 : RecordVersion }
    let success : CommitReceipt := ⟨group.requestId, .committed versions⟩
    let rejected : CommitReceipt := ⟨group.requestId, .rejected longestRejection⟩
    max (serialize success).length (serialize rejected).length

/-- Add a reserved size; an overflow of the 64-bit sum exceeds the limit as well. -/
def reserve (total bytes : Nat) : QueueResult Nat :=
  if total + bytes > limits.maxResponseBytes.toNat then .error .tooLarge else .ok (total + bytes)

def validateCommitGroups (queue : QueueAddress) (groups : List CommitGroup) :
    QueueResult Unit := do
  preflightCommitGroups queue groups limits
  schema.validate
  limits.validate
  rejectIf (groups.isEmpty || decide (groups.length > limits.maxGroups.toNat))
    (invalid "invalid commit group count")
  let _ ← groups.foldlM (CommitGroup.validate schema limits) ∅
  let _ ← groups.foldlM (fun total group => reserve limits total group.responseBytes) 10
  byteLimit (commitEnvelope queue groups) limits.maxRequestBytes

end Validate

namespace InsertRequest

def preflightItem (limits : QueueLimits) (keys : BTreeSet String) (item : NewWork) :
    QueueResult (BTreeSet String) := do
  name item.key
  let keys ← insertNew "duplicate insert key" keys item.key
  rejectIf (decide (item.body.length > limits.maxBodyBytes.toNat)) .tooLarge
  .ok keys

def preflight (request : InsertRequest) (limits : QueueLimits) : QueueResult Unit := do
  envelope request.queue (serialize request) limits
  name request.requestId
  rejectIf (request.items.isEmpty || decide (request.items.length > limits.maxRecords.toNat))
    (invalid "invalid insert count")
  let _ ← request.items.foldlM (preflightItem limits) ∅
  .ok ()

def validateItem (schema : QueueSchema) (limits : QueueLimits) (keys : BTreeSet String)
    (item : NewWork) : QueueResult (BTreeSet String) := do
  let keys ← insertNew "duplicate insert key" keys item.key
  work item schema limits
  .ok keys

def responseBytes (item : NewWork) : Nat :=
  max (serialize (InsertOutcome.replaced item.key 18446744073709551615)).length
    (serialize (InsertOutcome.rejected item.key longestRejection)).length

def validate (request : InsertRequest) (schema : QueueSchema) (limits : QueueLimits) :
    QueueResult Unit := do
  request.preflight limits
  name request.requestId
  limits.validate
  rejectIf (request.items.isEmpty || decide (request.items.length > limits.maxRecords.toNat))
    (invalid "invalid insert count")
  let _ ← request.items.foldlM (validateItem schema limits) ∅
  let _ ← request.items.foldlM (fun total item => reserve limits total (responseBytes item)) 10
  byteLimit (serialize request) limits.maxRequestBytes

end InsertRequest

end QueueContract
