import Fireweed.Checked
import Fireweed.Engine
import Fireweed.Timestamp

/-!
# Queue ownership control plane

The authority record of a queue, the pure lease decisions over one record, and
the in-memory control plane that applies them. Every operation takes the lock
once, so it is one atomic step. Arithmetic is that of the release profile: the
epoch of an ownership change wraps at the end of `u64`.
-/

namespace ControlPlane

open BTree Checked Domain Engine Std

abbrev OwnerId := String

inductive LeaseState where
  | unassigned
  | pendingFence
  | assigned
  | draining
deriving DecidableEq, Repr

structure QueueLease where
  state : LeaseState
  activeOwnerId : Option OwnerId
  targetOwnerId : Option OwnerId
  assignmentEpoch : UInt64
  leaseExpiresAt : Option UtcTimestamp
deriving DecidableEq

namespace QueueLease

/-- Genesis: a queue that was never owned. -/
def unassigned : QueueLease := ⟨.unassigned, none, none, 0, none⟩

/-- Held by an owner whose lease has not expired. -/
def isLive (lease : QueueLease) (now : UtcTimestamp) : Bool :=
  (match lease.state with
    | .unassigned => false
    | _ => true) &&
  lease.leaseExpiresAt.any fun expiry => decide (now < expiry)

end QueueLease

def ownerHeartbeatLive (heartbeatAt now : UtcTimestamp) (ttlMs : UInt64) : Bool :=
  decide (heartbeatAt.elapsedMs now < ttlMs)

/-! ## Lease decisions -/

inductive AcquireOutcome where
  | acquired (lease : QueueLease)
  | rejected (held : QueueLease)
deriving DecidableEq

/-- An ownership change advances the epoch and must be fenced; an owner that is still recorded
keeps its epoch, also after its lease has lapsed. -/
def leaseDecideAcquire (current : QueueLease) (owner : OwnerId) (now : UtcTimestamp)
    (leaseTtlMs : UInt64) : AcquireOutcome :=
  if current.isLive now && (current.activeOwnerId != some owner ||
      decide (current.state = .pendingFence)) then
    .rejected current
  else
    let sameOwner := current.activeOwnerId == some owner && decide (current.state ≠ .pendingFence)
    .acquired {
      state := if sameOwner then .assigned else .pendingFence
      activeOwnerId := some owner
      targetOwnerId := some owner
      assignmentEpoch := if sameOwner then current.assignmentEpoch else current.assignmentEpoch + 1
      leaseExpiresAt := some (now.addMillis leaseTtlMs) }

/-- A lease starts serving once its storage fence is durable. -/
def leaseDecideConfirmFence (current : QueueLease) (owner : OwnerId) (expectedEpoch : UInt64)
    (now : UtcTimestamp) : EngineResult QueueLease := do
  rejectIf (current.activeOwnerId != some owner || current.assignmentEpoch != expectedEpoch ||
      !current.isLive now || !(decide (current.state = .pendingFence) ||
        decide (current.state = .assigned))) .epochFenced
  .ok { current with state := .assigned }

def leaseDecideRenew (current : QueueLease) (owner : OwnerId) (expectedEpoch : UInt64)
    (now : UtcTimestamp) (leaseTtlMs : UInt64) : EngineResult QueueLease := do
  rejectIf (current.activeOwnerId != some owner || current.assignmentEpoch != expectedEpoch ||
      !(decide (current.state = .assigned) || decide (current.state = .draining)) ||
      !current.isLive now) .epochFenced
  let requested := now.addMillis leaseTtlMs
  .ok { current with
    leaseExpiresAt := some (current.leaseExpiresAt.elim requested fun expiry =>
      max expiry requested) }

def leaseDecideBeginDrain (current : QueueLease) (expectedEpoch : UInt64) (targetOwner : OwnerId)
    (now : UtcTimestamp) : EngineResult QueueLease := do
  rejectIf (current.assignmentEpoch != expectedEpoch || !current.isLive now) .epochFenced
  rejectIf (decide (current.state ≠ .assigned)) .conflict
  rejectIf (current.activeOwnerId == some targetOwner) (.invalid "drain target is the active owner")
  .ok { current with state := .draining, targetOwnerId := some targetOwner }

/-- The epoch is retained, so that the next owner gets a greater one. -/
def leaseDecideRelease (current : QueueLease) (owner : OwnerId) (expectedEpoch : UInt64) :
    EngineResult QueueLease := do
  rejectIf (current.activeOwnerId != some owner || current.assignmentEpoch != expectedEpoch ||
      decide (current.state = .unassigned)) .epochFenced
  .ok ⟨.unassigned, none, none, current.assignmentEpoch, none⟩

/-! ## The in-memory control plane -/

structure ControlPlaneConfig where
  heartbeatTtlMs : UInt64
  leaseTtlMs : UInt64

def ControlPlaneConfig.default : ControlPlaneConfig := ⟨5000, 15000⟩

structure CpState where
  owners : BTreeMap OwnerId UtcTimestamp
  endpoints : BTreeMap OwnerId String
  leases : BTreeMap QueueKey QueueLease
deriving DecidableEq

def CpState.default : CpState := ⟨∅, ∅, ∅⟩

namespace CpState

/-- The record of a queue; a missing record is genesis. -/
def lease (state : CpState) (queue : QueueKey) : QueueLease :=
  state.leases[queue]?.getD .unassigned

def setLease (state : CpState) (queue : QueueKey) (lease : QueueLease) : CpState :=
  { state with leases := state.leases.insert queue lease }

theorem lease_setLease (state : CpState) (queue other : QueueKey) (lease : QueueLease) :
    (state.setLease queue lease).lease other =
      if queue = other then lease else state.lease other := by
  simp only [CpState.lease, setLease, get_insert]
  split <;> rfl

end CpState

structure LeaseRenewal where
  queue : QueueKey
  owner : OwnerId
  expectedEpoch : UInt64
deriving DecidableEq

inductive LeaseRenewalOutcome where
  | renewed (lease : QueueLease)
  | fenced
  | missing
  | error (error : EngineError)
deriving DecidableEq

namespace InMemory

variable (config : ControlPlaneConfig) (state : CpState)

def isOwnerLive (owner : OwnerId) (now : UtcTimestamp) : Bool :=
  state.owners[owner]?.any fun heartbeat => ownerHeartbeatLive heartbeat now config.heartbeatTtlMs

def registerOwner (owner : OwnerId) (now : UtcTimestamp) : CpState :=
  { state with owners := state.owners.insert owner now }

def advertiseOwnerEndpoint (owner : OwnerId) (endpoint : String) (now : UtcTimestamp) : CpState :=
  { state with
    owners := state.owners.insert owner now
    endpoints := state.endpoints.insert owner endpoint }

/-- A heartbeat of an unknown owner registers it. -/
def heartbeat (owner : OwnerId) (now : UtcTimestamp) : CpState :=
  registerOwner state owner now

def acquireQueueLease (queue : QueueKey) (owner : OwnerId) (now : UtcTimestamp) :
    EngineResult AcquireOutcome × CpState :=
  if !isOwnerLive config state owner now then
    (.error (.forbidden "owner is not live (register + heartbeat first)"), state)
  else
    match leaseDecideAcquire (state.lease queue) owner now config.leaseTtlMs with
    | .acquired lease => (.ok (.acquired lease), state.setLease queue lease)
    | .rejected held => (.ok (.rejected held), state)

/-- Apply a decision over the record of a queue: a refusal changes nothing. -/
def decide_ (queue : QueueKey) (decision : QueueLease → EngineResult QueueLease) :
    EngineResult QueueLease × CpState :=
  match decision (state.lease queue) with
  | .ok lease => (.ok lease, state.setLease queue lease)
  | .error e => (.error e, state)

def confirmQueueLeaseFence (queue : QueueKey) (owner : OwnerId) (expectedEpoch : UInt64)
    (now : UtcTimestamp) : EngineResult QueueLease × CpState :=
  decide_ state queue fun current => leaseDecideConfirmFence current owner expectedEpoch now

def renewQueueLease (queue : QueueKey) (owner : OwnerId) (expectedEpoch : UInt64)
    (now : UtcTimestamp) : EngineResult QueueLease × CpState :=
  decide_ state queue fun current =>
    leaseDecideRenew current owner expectedEpoch now config.leaseTtlMs

/-- One renewal of a batch; unlike a single renewal it tells a missing record. -/
def renewOne (now : UtcTimestamp) (renewal : LeaseRenewal) : LeaseRenewalOutcome × CpState :=
  match state.leases[renewal.queue]? with
  | none => (.missing, state)
  | some current =>
    match leaseDecideRenew current renewal.owner renewal.expectedEpoch now config.leaseTtlMs with
    | .ok renewed => (.renewed renewed, state.setLease renewal.queue renewed)
    | .error .epochFenced => (.fenced, state)
    | .error e => (.error e, state)

/-- A batch of renewals in order, each with its own outcome. -/
def renewQueueLeases (now : UtcTimestamp) :
    List LeaseRenewal → CpState → List LeaseRenewalOutcome × CpState
  | [], state => ([], state)
  | renewal :: rest, state =>
    let (outcome, next) := renewOne config state now renewal
    let (outcomes, last) := renewQueueLeases now rest next
    (outcome :: outcomes, last)

def beginDrain (queue : QueueKey) (expectedEpoch : UInt64) (targetOwner : OwnerId)
    (now : UtcTimestamp) : EngineResult QueueLease × CpState :=
  decide_ state queue fun current => leaseDecideBeginDrain current expectedEpoch targetOwner now

/-- A release is checked by its epoch, not by the time. -/
def releaseQueueLease (queue : QueueKey) (owner : OwnerId) (expectedEpoch : UInt64) :
    EngineResult QueueLease × CpState :=
  decide_ state queue fun current => leaseDecideRelease current owner expectedEpoch

end InMemory

/-! ## Calls -/

inductive Call where
  | register (owner : OwnerId) (now : UtcTimestamp)
  | advertise (owner : OwnerId) (endpoint : String) (now : UtcTimestamp)
  | heartbeat (owner : OwnerId) (now : UtcTimestamp)
  | acquire (queue : QueueKey) (owner : OwnerId) (now : UtcTimestamp)
  | confirm (queue : QueueKey) (owner : OwnerId) (expectedEpoch : UInt64) (now : UtcTimestamp)
  | renew (queue : QueueKey) (owner : OwnerId) (expectedEpoch : UInt64) (now : UtcTimestamp)
  | renewBatch (renewals : List LeaseRenewal) (now : UtcTimestamp)
  | beginDrain (queue : QueueKey) (expectedEpoch : UInt64) (targetOwner : OwnerId)
      (now : UtcTimestamp)
  | release (queue : QueueKey) (owner : OwnerId) (expectedEpoch : UInt64) (now : UtcTimestamp)
deriving DecidableEq

inductive Reply where
  | done
  | acquire (outcome : EngineResult AcquireOutcome)
  | lease (outcome : EngineResult QueueLease)
  | batch (outcomes : List LeaseRenewalOutcome)
deriving DecidableEq

open InMemory in
def execute (config : ControlPlaneConfig) (state : CpState) : Call → Reply × CpState
  | .register owner now => (.done, registerOwner state owner now)
  | .advertise owner endpoint now => (.done, advertiseOwnerEndpoint state owner endpoint now)
  | .heartbeat owner now => (.done, InMemory.heartbeat state owner now)
  | .acquire queue owner now => (acquireQueueLease config state queue owner now).map .acquire id
  | .confirm queue owner epoch now =>
    (confirmQueueLeaseFence state queue owner epoch now).map .lease id
  | .renew queue owner epoch now =>
      (renewQueueLease config state queue owner epoch now).map .lease id
  | .renewBatch renewals now => (renewQueueLeases config now renewals state).map .batch id
  | .beginDrain queue epoch target now =>
    (InMemory.beginDrain state queue epoch target now).map .lease id
  | .release queue owner epoch _ => (releaseQueueLease state queue owner epoch).map .lease id

end ControlPlane
