import Fireweed.ControlPlane.Epochs

/-!
# Acquiring ownership and fencing storage

The steps of `acquire_and_fence` calls on one queue, interleaved with each other
and with renewals, drains, releases and restarts. The control plane and the
storage epoch are touched by one step at a time; between two steps of a call any
other step may happen. The storage epoch is a number that only its two advancing
operations change.
-/

namespace OwnershipFence

open BTree Checked ControlPlane Domain Engine Std

/-- The fence of a data-plane write that is stamped by an owner. -/
def resolveBoundedEpoch (current : Nat) (expected : Option Nat) : EngineResult Nat := do
  rejectIf (expected.any (· != current)) .epochFenced
  rejectIf (decide (current < 1)) (.invalid
    "assignment epoch 0 is not valid for data-plane writes; acquire a positive epoch first")
  .ok current

def resolveEpochFence (current : Nat) (expected : Option Nat) : EngineResult Nat := do
  rejectIf (expected.any (· != current)) .epochFenced
  .ok current

def resolveWriteEpoch (current : Nat) (expected : Option Nat) : EngineResult Nat :=
  match expected with
  | some _ => resolveBoundedEpoch current expected
  | none => resolveEpochFence current none

/-- Where a call is: what it does next, with what it has read. -/
inductive Phase where
  | reading
  | acquiring (prior : Option QueueLease)
  | probing (prior : Option QueueLease) (lease : QueueLease)
  /-- At the read of `fence_epoch`. -/
  | fencing (lease : QueueLease)
  /-- In the loop of `fence_epoch`, below the target. -/
  | raising (lease : QueueLease)
  /-- At the one advance of a new assignment. -/
  | advancing (lease : QueueLease)
  | confirming (lease : QueueLease) (fence : Nat)
  | failing (lease : QueueLease)
deriving DecidableEq

/-- A call in flight; its clock is read once. -/
structure PendingCall where
  owner : OwnerId
  now : UtcTimestamp
  phase : Phase
deriving DecidableEq

/-- A session returned as owned, with the incarnation of the control plane it was won in. -/
structure OwnedSession where
  owner : OwnerId
  leaseEpoch : UInt64
  fenceEpoch : Nat
  incarnation : Nat
deriving DecidableEq

structure System where
  record : QueueLease
  storage : Nat
  incarnation : Nat
  calls : BTreeMap Nat PendingCall
  sessions : List OwnedSession

def System.initial (storage : Nat) : System := ⟨.unassigned, storage, 0, ∅, []⟩

namespace System

def goto (sys : System) (id : Nat) (call : PendingCall) (phase : Phase) : System :=
  { sys with calls := sys.calls.insert id { call with phase := phase } }

def drop (sys : System) (id : Nat) : System := { sys with calls := sys.calls.erase id }

def return_ (sys : System) (id : Nat) (call : PendingCall) (lease : QueueLease) (fence : Nat) :
    System :=
  { sys with
    calls := sys.calls.erase id
    sessions := sys.sessions ++
      [⟨call.owner, lease.assignmentEpoch, fence, sys.incarnation⟩] }

/-- With its fence established a new assignment is confirmed, a re-affirmed one is returned. -/
def settle (sys : System) (id : Nat) (call : PendingCall) (lease : QueueLease) (fence : Nat) :
    System :=
  if lease.state = .pendingFence then sys.goto id call (.confirming lease fence)
  else sys.return_ id call lease fence

/-- The prior record shows that this very assignment was confirmed for the owner. -/
def sameSession (owner : OwnerId) (prior : Option QueueLease) (lease : QueueLease) : Bool :=
  prior.any fun prior => prior.activeOwnerId == some owner &&
    prior.assignmentEpoch == lease.assignmentEpoch && decide (prior.state ≠ .pendingFence)

/-- `establish_ownership_fence`, up to its first storage operation. -/
def establish (ephemeral : Bool) (sys : System) (id : Nat) (call : PendingCall)
    (prior : Option QueueLease) (lease : QueueLease) : System :=
  let current := sys.storage
  let assignment := lease.assignmentEpoch.toNat
  if current < assignment then sys.goto id call (.fencing lease)
  else if ephemeral then
    if sameSession call.owner prior lease then sys.settle id call lease current
    else sys.goto id call (.advancing lease)
  else if current = assignment then sys.goto id call (.fencing lease)
  else sys.goto id call (.failing lease)

/-- The loop test of `fence_epoch` at a value just read. -/
def fenceLoop (sys : System) (id : Nat) (call : PendingCall) (lease : QueueLease) : System :=
  let target := lease.assignmentEpoch.toNat
  if target < sys.storage then sys.goto id call (.failing lease)
  else if sys.storage < target then sys.goto id call (.raising lease)
  else sys.settle id call lease sys.storage

/-- `acquire_epoch`. -/
def raise (sys : System) : System := { sys with storage := sys.storage + 1 }

/-- The next step of a call. `ownerLive` is what the control plane finds when it is asked. -/
def proceed (ephemeral : Bool) (ttl : UInt64) (sys : System) (id : Nat) (call : PendingCall)
    (ownerLive : Bool) : System :=
  match call.phase with
  | .reading => sys.goto id call (.acquiring (if ephemeral then some sys.record else none))
  | .acquiring prior =>
    if ownerLive then
      match leaseDecideAcquire sys.record call.owner call.now ttl with
      | .acquired lease => { sys with record := lease }.goto id call (.probing prior lease)
      | .rejected _ => sys.drop id
    else sys.drop id
  | .probing prior lease => establish ephemeral sys id call prior lease
  | .fencing lease => fenceLoop sys id call lease
  | .raising lease => fenceLoop sys.raise id call lease
  | .advancing lease => sys.raise.settle id call lease sys.raise.storage
  | .confirming lease fence =>
    match leaseDecideConfirmFence sys.record call.owner lease.assignmentEpoch call.now with
    | .ok confirmed => { sys with record := confirmed }.return_ id call lease fence
    | .error _ => sys.goto id call (.failing lease)
  | .failing lease =>
    match leaseDecideRelease sys.record call.owner lease.assignmentEpoch with
    | .ok released => { sys with record := released }.drop id
    | .error _ => sys.drop id

/-- Replace the record when a decision succeeds. -/
def decideWith (sys : System) (decision : EngineResult QueueLease) : System :=
  match decision with
  | .ok lease => { sys with record := lease }
  | .error _ => sys

end System

inductive Action where
  | start (id : Nat) (owner : OwnerId) (now : UtcTimestamp)
  | proceed (id : Nat) (ownerLive : Bool)
  /-- The caller drops the call. -/
  | abandon (id : Nat)
  | renew (owner : OwnerId) (expectedEpoch : UInt64) (now : UtcTimestamp)
  | beginDrain (expectedEpoch : UInt64) (targetOwner : OwnerId) (now : UtcTimestamp)
  | release (owner : OwnerId) (expectedEpoch : UInt64)
  /-- An ephemeral control plane starts again at genesis. -/
  | restart
deriving DecidableEq

/-- One step, where it is possible. -/
def perform (ephemeral : Bool) (ttl : UInt64) (sys : System) : Action → Option System
  | .start id owner now =>
    if sys.calls.contains id then none
    else some { sys with calls := sys.calls.insert id ⟨owner, now, .reading⟩ }
  | .proceed id ownerLive =>
    sys.calls[id]?.map fun call => sys.proceed ephemeral ttl id call ownerLive
  | .abandon id => some (sys.drop id)
  | .renew owner epoch now =>
      some (sys.decideWith (leaseDecideRenew sys.record owner epoch now ttl))
  | .beginDrain epoch target now =>
    some (sys.decideWith (leaseDecideBeginDrain sys.record epoch target now))
  | .release owner epoch => some (sys.decideWith (leaseDecideRelease sys.record owner epoch))
  | .restart =>
    if ephemeral then
      some { sys with record := .unassigned, incarnation := sys.incarnation + 1, calls := ∅ }
    else none

end OwnershipFence
