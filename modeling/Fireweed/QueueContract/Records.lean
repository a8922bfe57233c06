import Fireweed.QueueContract.Values

/-!
# Records and record updates

Work and state records, the updates a commit group may request for them, and the
comparisons and wire forms derived for these types.
-/

namespace QueueContract

open BTree Checked Postcard Std

/-- Thirty-two digest bytes. -/
abbrev Digest := { bytes : List UInt8 // bytes.length = 32 }

/-- The hash function of the `sha2` crate, a parameter of the development. -/
class Sha256 where
  digest : List UInt8 → Digest

inductive Lifecycle where
  | pending
  | leased
  | completed
  | failed
deriving DecidableEq, Repr

structure NewWork where
  key : String
  priority : Int64
  availableAt : Int64
  fields : Fields
  body : List UInt8
deriving DecidableEq

structure LeaseCredential where
  token : List UInt8
deriving DecidableEq, Repr

structure WorkRecord where
  work : NewWork
  version : UInt64
  insertionSequence : UInt64
  lifecycle : Lifecycle
  eligibleSince : Int64
  attempts : UInt32
  leaseExpiresAt : Option Int64
deriving DecidableEq

inductive StateExpect where
  | absent
  | version (v : UInt64)
deriving DecidableEq, Repr

structure StateRecord where
  collection : String
  key : String
  version : UInt64
  fields : Fields
  value : List UInt8
deriving DecidableEq

/-- The derived `PartialEq` of new work. -/
def NewWork.eq (a b : NewWork) : Bool :=
  a.key == b.key && a.priority == b.priority && a.availableAt == b.availableAt &&
    Fields.eq a.fields b.fields && a.body == b.body

/-- The derived `PartialEq` of work records. -/
def WorkRecord.eq (a b : WorkRecord) : Bool :=
  a.work.eq b.work && a.version == b.version && a.insertionSequence == b.insertionSequence &&
    decide (a.lifecycle = b.lifecycle) && a.eligibleSince == b.eligibleSince &&
    a.attempts == b.attempts && a.leaseExpiresAt == b.leaseExpiresAt

inductive StateChange where
  | put (fields : Fields) (value : List UInt8)
  | delete
  | check
deriving DecidableEq

structure StateUpdate where
  collection : String
  key : String
  expect : StateExpect
  change : StateChange
deriving DecidableEq

structure WorkPatch where
  priority : Option Int64
  availableAt : Option Int64
  fields : FieldEdits
  body : Option (List UInt8)
deriving DecidableEq

/-- `WorkPatch::default()`. -/
def WorkPatch.empty : WorkPatch := ⟨none, none, ∅, none⟩

inductive Disposition where
  | complete
  | fail
  | release
  | retryAt (time : Int64)
  | retain (renewNanos : Option UInt64)
  | delete
  | check
deriving DecidableEq, Repr

structure ClaimedUpdate where
  key : String
  lease : LeaseCredential
  expectedVersion : UInt64
  patch : WorkPatch
  disposition : Disposition
deriving DecidableEq

inductive AdministrativeLifecycle where
  | keep
  | pending
  | completed
  | failed
deriving DecidableEq, Repr

inductive AdministrativeLeaseGuard where
  | rejectActive
  | requireActive
  | invalidateActive
deriving DecidableEq, Repr

inductive UnclaimedChange where
  | patch (patch : WorkPatch)
  | administrative (patch : WorkPatch) (lifecycle : AdministrativeLifecycle)
      (leaseGuard : AdministrativeLeaseGuard)
  | replace (work : NewWork)
  | delete
deriving DecidableEq

structure UnclaimedUpdate where
  key : String
  expect : StateExpect
  change : UnclaimedChange
deriving DecidableEq

structure RecordVersion where
  collection : Option String
  key : String
  version : UInt64
deriving DecidableEq, Repr

/-! ## Checks of single updates -/

def work (item : NewWork) (schema : QueueSchema) (limits : QueueLimits) : QueueResult Unit := do
  name item.key
  fields item.fields schema.work
  rejectIf (decide (item.body.length > limits.maxBodyBytes.toNat)) .tooLarge

def patch (value : WorkPatch) (schema : QueueSchema) (limits : QueueLimits) :
    QueueResult Unit := do
  forM value.fields.toList fun entry => do
    name entry.1
    rejectIf (!schema.work.admitsField entry.1) (invalid "undeclared patch field")
    match entry.2 with
    | some v => schema.work.validateValue entry.1 v
    | none => .ok ()
  rejectIf (value.body.any fun body => decide (body.length > limits.maxBodyBytes.toNat)) .tooLarge

def expect (value : StateExpect) : QueueResult Unit :=
  rejectIf (value == .version 0) (invalid "record versions start at one")

def leaseDuration (value : UInt64) : QueueResult Unit :=
  rejectIf (!(decide (1000000 ≤ value) && decide (value ≤ 3600000000000)))
    (invalid "lease outside 1ms to 1h")

/-! ## Wire form -/

instance : Serialize Lifecycle :=
  ⟨fun
    | .pending => variant 0 []
    | .leased => variant 1 []
    | .completed => variant 2 []
    | .failed => variant 3 []⟩

instance : Serialize NewWork :=
  ⟨fun w => serialize w.key ++ serialize w.priority ++ serialize w.availableAt ++
    serialize w.fields ++ serialize w.body⟩

instance : Serialize LeaseCredential := ⟨fun c => serialize c.token⟩

instance : Serialize StateExpect :=
  ⟨fun
    | .absent => variant 0 []
    | .version v => variant 1 (serialize v)⟩

instance : Serialize StateChange :=
  ⟨fun
    | .put fields value => variant 0 (serialize fields ++ serialize value)
    | .delete => variant 1 []
    | .check => variant 2 []⟩

instance : Serialize StateUpdate :=
  ⟨fun u => serialize u.collection ++ serialize u.key ++ serialize u.expect ++ serialize u.change⟩

instance : Serialize WorkPatch :=
  ⟨fun p => serialize p.priority ++ serialize p.availableAt ++ serialize p.fields ++
    serialize p.body⟩

instance : Serialize Disposition :=
  ⟨fun
    | .complete => variant 0 []
    | .fail => variant 1 []
    | .release => variant 2 []
    | .retryAt time => variant 3 (serialize time)
    | .retain renewNanos => variant 4 (serialize renewNanos)
    | .delete => variant 5 []
    | .check => variant 6 []⟩

instance : Serialize ClaimedUpdate :=
  ⟨fun u => serialize u.key ++ serialize u.lease ++ serialize u.expectedVersion ++
    serialize u.patch ++ serialize u.disposition⟩

instance : Serialize AdministrativeLifecycle :=
  ⟨fun
    | .keep => variant 0 []
    | .pending => variant 1 []
    | .completed => variant 2 []
    | .failed => variant 3 []⟩

instance : Serialize AdministrativeLeaseGuard :=
  ⟨fun
    | .rejectActive => variant 0 []
    | .requireActive => variant 1 []
    | .invalidateActive => variant 2 []⟩

instance : Serialize UnclaimedChange :=
  ⟨fun
    | .patch p => variant 0 (serialize p)
    | .administrative p lifecycle leaseGuard =>
      variant 1 (serialize p ++ serialize lifecycle ++ serialize leaseGuard)
    | .replace w => variant 2 (serialize w)
    | .delete => variant 3 []⟩

instance : Serialize UnclaimedUpdate :=
  ⟨fun u => serialize u.key ++ serialize u.expect ++ serialize u.change⟩

instance : Serialize RecordVersion :=
  ⟨fun v => serialize v.collection ++ serialize v.key ++ serialize v.version⟩

instance : Serialize Rejection :=
  ⟨fun
    | .staleLease => variant 0 []
    | .versionConflict => variant 1 []
    | .alreadyExists => variant 2 []
    | .notFound => variant 3 []
    | .leased => variant 4 []
    | .invalid message => variant 5 (serialize message)
    | .uniqueConflict => variant 6 []
    | .terminal => variant 7 []
    | .tooLarge => variant 8 []⟩

end QueueContract
