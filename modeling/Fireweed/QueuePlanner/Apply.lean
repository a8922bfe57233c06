import Fireweed.QueuePlanner.Snapshot

/-!
# Applying a commit group

The business step of the planner: each update of a group checks its own record
and writes the candidate image and the delta. The first rejection discards both.
-/

namespace QueuePlanner

open BTree Checked QueueContract QueueFields Std

section Leases

variable [Sha256]

def leaseHash (token : List UInt8) : Digest := Sha256.digest token

/-- Comparison in constant time: the differences of all byte pairs are accumulated. -/
def tokenEqual (a b : Digest) : Bool :=
  (a.val.zip b.val).foldl (fun difference pair => difference ||| (pair.1 ^^^ pair.2)) 0 == 0

/-- A credential is stale unless the record is leased, unexpired and holds its hash. -/
def staleCredential (stored : StoredWork) (now : Int64) (token : List UInt8) : Bool :=
  decide (stored.record.lifecycle ≠ .leased) ||
    stored.record.leaseExpiresAt.all (fun expiry => decide (expiry ≤ now)) ||
    stored.leaseHash.all fun hash => !tokenEqual hash (leaseHash token)

end Leases

def require {α : Type} (value : Option α) (reason : Rejection) : Except Rejection α :=
  match value with
  | some a => .ok a
  | none => .error reason

def highWater (snapshot : RecordSnapshot) (id : RecordIdentity) : UInt64 :=
  snapshot.versions[id]?.getD 0

def increment (n : UInt64) (message : String) : Except Rejection UInt64 :=
  if n = 18446744073709551615 then .error (.invalid message) else .ok (n + 1)

def nextVersion (snapshot : RecordSnapshot) (id : RecordIdentity) :
    Except Rejection (UInt64 × RecordSnapshot) := do
  let n ← increment (highWater snapshot id) "record version exhausted"
  .ok (n, { snapshot with versions := snapshot.versions.insert id n })

def expectState (present : Option UInt64) (expected : StateExpect) : Except Rejection Unit :=
  match present, expected with
  | none, .absent => .ok ()
  | some _, .absent => .error .alreadyExists
  | none, .version _ => .error .notFound
  | some actual, .version expected =>
    if actual = expected then .ok () else .error .versionConflict

def patchWork (stored : StoredWork) (patch : WorkPatch) : StoredWork :=
  let work := stored.record.work
  { stored with
    record := { stored.record with
      work := { work with
        priority := patch.priority.getD work.priority
        availableAt := patch.availableAt.getD work.availableAt
        body := patch.body.getD work.body
        fields := applyFieldEdits work.fields patch.fields } }
    bodyLoaded := stored.bodyLoaded || patch.body.isSome
    fieldCoverage := match stored.fieldCoverage with
      | .selected names prefixes => .selected (names.insertMany patch.fields.keys) prefixes
      | .complete => .complete }

def checkedExpiry (now : Int64) (duration : UInt64) : Except Rejection Int64 :=
  if duration.toNat > 9223372036854775807 then .error (.invalid "lease duration overflow")
  else
    let expiry := now.toInt + duration.toNat
    if expiry > 9223372036854775807 then .error (.invalid "lease expiry overflow")
    else .ok (Int64.ofInt expiry)

def desiredLifecycle (current : Lifecycle) (lifecycle : AdministrativeLifecycle)
    (leaseGuard : AdministrativeLeaseGuard) : Lifecycle :=
  match lifecycle with
  | .keep => if current = .leased ∧ leaseGuard = .invalidateActive then .pending else current
  | .pending => .pending
  | .completed => .completed
  | .failed => .failed

/-- Drop the lease of a row. -/
def clearLease (stored : StoredWork) : StoredWork :=
  { stored with record := { stored.record with leaseExpiresAt := none }, leaseHash := none }

/-- Whether a guard allows a change to a row with or without an active lease. -/
def checkGuard (leaseGuard : AdministrativeLeaseGuard) (active : Bool) : Except Rejection Unit :=
  match leaseGuard with
  | .rejectActive => rejectIf active .leased
  | .requireActive => rejectIf (!active) .staleLease
  | .invalidateActive => .ok ()

def applyAdministrativeUpdate (stored : StoredWork) (patch : WorkPatch)
    (lifecycle : AdministrativeLifecycle) (leaseGuard : AdministrativeLeaseGuard) (now : Int64) :
    Except Rejection (Bool × StoredWork) := do
  let before := stored
  let active := stored.active now
  checkGuard leaseGuard active
  rejectIf (decide (stored.record.lifecycle = .completed ∨ stored.record.lifecycle = .failed) &&
    decide (lifecycle = .completed ∨ lifecycle = .failed)) .terminal
  let desired := desiredLifecycle stored.record.lifecycle lifecycle leaseGuard
  rejectIf (active && decide (desired ≠ .leased) && decide (leaseGuard = .rejectActive)) .leased
  let stored := patchWork stored patch
  let stored := { stored with record := { stored.record with lifecycle := desired } }
  let stored :=
    if desired ≠ .leased ∨ leaseGuard = .invalidateActive then clearLease stored else stored
  let stored :=
    if desired = .pending ∧ (before.record.lifecycle ≠ .pending ∨
        before.record.work.availableAt ≠ stored.record.work.availableAt) then
      { stored with record := { stored.record with
          eligibleSince := max now stored.record.work.availableAt } }
    else stored
  .ok (!stored.record.eq before.record || stored.leaseHash != before.leaseHash, stored)

/-- Fresh pending work, as inserted or replaced. -/
def freshWork (work : NewWork) (version sequence : UInt64) (now : Int64) : StoredWork where
  record := {
    work := work
    version := version
    insertionSequence := sequence
    lifecycle := .pending
    eligibleSince := max now work.availableAt
    attempts := 0
    leaseExpiresAt := none }
  leaseHash := none
  fieldCoverage := .complete
  bodyLoaded := true

/-- The candidate image and the delta under construction. -/
structure Plan where
  snapshot : RecordSnapshot
  delta : CommitDelta

namespace Plan

def putWork (plan : Plan) (key : String) (stored : StoredWork) (version : UInt64) : Plan where
  snapshot := { plan.snapshot with work := plan.snapshot.work.insert key stored }
  delta := { plan.delta with
    work := plan.delta.work ++ [stored]
    versions := plan.delta.versions ++ [⟨none, key, version⟩] }

def deleteWork (plan : Plan) (key : String) (version : UInt64) : Plan where
  snapshot := { plan.snapshot with work := plan.snapshot.work.erase key }
  delta := { plan.delta with
    deletedWork := plan.delta.deletedWork ++ [key]
    versions := plan.delta.versions ++ [⟨none, key, version⟩] }

def putState (plan : Plan) (record : StateRecord) : Plan where
  snapshot := { plan.snapshot with
    state := plan.snapshot.state.insert (record.collection, record.key) record }
  delta := { plan.delta with
    state := plan.delta.state ++ [record]
    versions := plan.delta.versions ++ [⟨some record.collection, record.key, record.version⟩] }

def deleteState (plan : Plan) (id : String × String) (version : UInt64) : Plan where
  snapshot := { plan.snapshot with state := plan.snapshot.state.erase id }
  delta := { plan.delta with
    deletedState := plan.delta.deletedState ++ [id]
    versions := plan.delta.versions ++ [⟨some id.1, id.2, version⟩] }

/-- Take the next version of a record from its high-water. -/
def nextVersion (plan : Plan) (id : RecordIdentity) : Except Rejection (UInt64 × Plan) := do
  let (version, snapshot) ← QueuePlanner.nextVersion plan.snapshot id
  .ok (version, { plan with snapshot := snapshot })

def nextSequence (plan : Plan) : Except Rejection (UInt64 × Plan) := do
  let sequence ← increment plan.snapshot.nextSequence "sequence exhausted"
  .ok (sequence, { plan with snapshot := { plan.snapshot with nextSequence := sequence } })

end Plan

section Updates

variable [Sha256] (now : Int64) (schema : QueueSchema)

/-- The lifecycle, schedule and expiry a disposition sets; none deletes the record. -/
def disposition (stored : StoredWork) : Disposition → Except Rejection (Option StoredWork)
  | .complete =>
    .ok (some { stored with record := { stored.record with lifecycle := .completed } })
  | .fail => .ok (some { stored with record := { stored.record with lifecycle := .failed } })
  | .release => .ok (some { stored with record := { stored.record with lifecycle := .pending } })
  | .retryAt time =>
    if stored.record.attempts ≥ schema.maxAttempts then
      .ok (some { stored with record := { stored.record with lifecycle := .failed } })
    else
      .ok (some { stored with record := { stored.record with
        lifecycle := .pending
        work := { stored.record.work with availableAt := time }
        eligibleSince := time } })
  | .retain (some duration) => do
    let expiry ← checkedExpiry now duration
    .ok (some { stored with record := { stored.record with leaseExpiresAt := some expiry } })
  | .retain none => .ok (some stored)
  -- A check has returned before; the source marks this arm unreachable.
  | .check => .ok (some stored)
  | .delete => .ok none

/-- The row a claimed update leaves: a row that is no longer leased keeps no lease. -/
def dispose (stored : StoredWork) (wanted : Disposition) :
    Except Rejection (Option StoredWork) := do
  let disposed ← disposition now schema stored wanted
  .ok (disposed.map fun stored =>
    if stored.record.lifecycle ≠ .leased then clearLease stored else stored)

def applyClaimed (plan : Plan) (update : ClaimedUpdate) : Except Rejection Plan := do
  let stored ← require plan.snapshot.work[update.key]? .notFound
  rejectIf (staleCredential stored now update.lease.token) .staleLease
  rejectIf (stored.record.version != update.expectedVersion) .versionConflict
  -- A check stops here: it neither renews the lease nor takes a version.
  if update.disposition = .check then .ok plan
  else
    let patched := patchWork stored update.patch
    let (version, plan) ← plan.nextVersion ⟨none, update.key⟩
    let patched := { patched with record := { patched.record with version := version } }
    match ← dispose now schema patched update.disposition with
    | none => .ok (plan.deleteWork update.key version)
    | some stored => .ok (plan.putWork update.key stored version)

def applyState (plan : Plan) (update : StateUpdate) : Except Rejection Plan := do
  let id := (update.collection, update.key)
  expectState (plan.snapshot.state[id]?.map StateRecord.version) update.expect
  match update.change with
  | .check => .ok plan
  | .put fields value => do
    let (version, plan) ← plan.nextVersion ⟨some update.collection, update.key⟩
    .ok (plan.putState ⟨update.collection, update.key, version, fields, value⟩)
  | .delete => do
    let (version, plan) ← plan.nextVersion ⟨some update.collection, update.key⟩
    .ok (plan.deleteState id version)

/-- A patch outside a lease returns an expired lease to pending work. -/
def expireLease (stored : StoredWork) : StoredWork :=
  if stored.record.lifecycle = .leased then
    clearLease { stored with record := { stored.record with lifecycle := .pending } }
  else stored

/-- The version of an unchanged record is kept. -/
def administrativeVersion (plan : Plan) (key : String) (current : UInt64) (changed : Bool) :
    Except Rejection (UInt64 × Plan) :=
  if changed then plan.nextVersion ⟨none, key⟩ else .ok (current, plan)

def applyUnclaimed (plan : Plan) (update : UnclaimedUpdate) : Except Rejection Plan := do
  let stored ← require plan.snapshot.work[update.key]? .notFound
  expectState (some stored.record.version) update.expect
  match update.change with
  | .administrative patch lifecycle leaseGuard => do
    let (changed, stored') ← applyAdministrativeUpdate stored patch lifecycle leaseGuard now
    let (version, plan) ← administrativeVersion plan update.key stored.record.version changed
    let stored' := { stored' with record := { stored'.record with version := version } }
    .ok (plan.putWork update.key stored' version)
  | .patch patch => do
    rejectIf (stored.active now) .leased
    let (version, plan) ← plan.nextVersion ⟨none, update.key⟩
    let stored := patchWork (expireLease stored) patch
    let stored := { stored with record := { stored.record with version := version } }
    .ok (plan.putWork update.key stored version)
  | .replace work => do
    rejectIf (stored.active now) .leased
    let (version, plan) ← plan.nextVersion ⟨none, update.key⟩
    match stored.record.lifecycle with
    | .completed | .failed => .error .terminal
    | .leased => .error .leased
    | .pending => do
      rejectIf (work.key != update.key) (.invalid "replacement key mismatch")
      let (sequence, plan) ← plan.nextSequence
      .ok (plan.putWork update.key (freshWork work version sequence now) version)
  | .delete => do
    rejectIf (stored.active now) .leased
    let (version, plan) ← plan.nextVersion ⟨none, update.key⟩
    .ok (plan.deleteWork update.key version)

def applyInsert (plan : Plan) (work : NewWork) : Except Rejection Plan := do
  rejectIf (plan.snapshot.work.contains work.key) .alreadyExists
  let (version, plan) ← plan.nextVersion ⟨none, work.key⟩
  let (sequence, plan) ← plan.nextSequence
  .ok (plan.putWork work.key (freshWork work version sequence now) version)

/-- Apply a group to a candidate image; a rejection discards the candidate. -/
def applyGroup (group : CommitGroup) (snapshot : RecordSnapshot) :
    Except Rejection (CommitDelta × RecordSnapshot) := do
  let start : Plan := ⟨snapshot, .unchanged snapshot.nextSequence ⟨group.requestId, .committed []⟩⟩
  let plan ← group.claimedUpdates.foldlM (applyClaimed now schema) start
  let plan ← group.stateUpdates.foldlM applyState plan
  let plan ← group.workUpdates.foldlM (applyUnclaimed now) plan
  let plan ← group.workInserts.foldlM (applyInsert now) plan
  .ok ({ plan.delta with
    nextSequence := plan.snapshot.nextSequence
    receipt := ⟨group.requestId, .committed plan.delta.versions⟩ }, plan.snapshot)

end Updates

end QueuePlanner
