import Fireweed.QueueContract.Groups
import Fireweed.QueueFields

/-!
# Snapshots and deltas

The speculative image a planner works on, the delta it produces, and the
consistency checks of a loaded image.
-/

namespace QueuePlanner

open BTree Checked QueueContract QueueFields Std

structure RecordIdentity where
  collection : Option String
  key : String
deriving DecidableEq, Repr

namespace RecordIdentity

def pair (id : RecordIdentity) : Option String × String := (id.collection, id.key)

theorem pair_injective : Function.Injective pair := by
  rintro ⟨c, k⟩ ⟨d, l⟩ same
  simpa [pair] using same

instance : Ord RecordIdentity := ⟨compareOn pair⟩

instance : TransOrd RecordIdentity := inferInstanceAs (TransCmp (compareOn pair))

instance : LawfulEqOrd RecordIdentity := lawful_compareOn pair_injective

end RecordIdentity

structure UniqueIdentity where
  collection : Option String
  index : String
  fullSortKey : List UInt8
deriving DecidableEq, Repr

namespace UniqueIdentity

def triple (id : UniqueIdentity) : (Option String × String) × List UInt8 :=
  ((id.collection, id.index), id.fullSortKey)

theorem triple_injective : Function.Injective triple := by
  rintro ⟨c, i, k⟩ ⟨d, j, l⟩ same
  simpa [triple, and_assoc] using same

instance ordTriple : Ord ((Option String × String) × List UInt8) := lexOrd

instance transOrdTriple : TransOrd ((Option String × String) × List UInt8) :=
  inferInstanceAs (@TransOrd _ lexOrd)

instance lawfulEqOrdTriple : LawfulEqOrd ((Option String × String) × List UInt8) :=
  inferInstanceAs (@LawfulEqOrd _ lexOrd)

instance : Ord UniqueIdentity := ⟨compareOn triple⟩

instance : TransOrd UniqueIdentity := inferInstanceAs (TransCmp (compareOn triple))

instance : LawfulEqOrd UniqueIdentity := lawful_compareOn triple_injective

end UniqueIdentity

structure StoredWork where
  record : WorkRecord
  leaseHash : Option Digest
  fieldCoverage : FieldCoverage
  bodyLoaded : Bool
deriving DecidableEq

namespace StoredWork

def key (stored : StoredWork) : String := stored.record.work.key

def fields (stored : StoredWork) : Fields := stored.record.work.fields

def view (stored : StoredWork) : QueueResult CheckedFields :=
  CheckedFields.new stored.fields stored.fieldCoverage

/-- A lease that has not expired. -/
def active (stored : StoredWork) (now : Int64) : Bool :=
  decide (stored.record.lifecycle = .leased) &&
    stored.record.leaseExpiresAt.any fun expiry => decide (expiry > now)

end StoredWork

structure RecordSnapshot where
  work : BTreeMap String StoredWork
  state : BTreeMap (String × String) StateRecord
  versions : BTreeMap RecordIdentity UInt64
  nextSequence : UInt64
  uniqueProbesLoaded : BTreeSet UniqueIdentity
  uniqueOwners : BTreeMap UniqueIdentity RecordIdentity

/-- `RecordSnapshot::default()`. -/
def RecordSnapshot.empty : RecordSnapshot := ⟨∅, ∅, ∅, 0, ∅, ∅⟩

structure CommitDelta where
  work : List StoredWork
  workFields : BTreeMap String ResolvedFields
  workBodies : BTreeMap String ResolvedBody
  deletedWork : List String
  state : List StateRecord
  deletedState : List (String × String)
  versions : List RecordVersion
  nextSequence : UInt64
  receipt : CommitReceipt

/-- A delta that writes nothing. -/
def CommitDelta.unchanged (nextSequence : UInt64) (receipt : CommitReceipt) : CommitDelta :=
  ⟨[], ∅, ∅, [], [], [], [], nextSequence, receipt⟩

def versionIdentity (v : RecordVersion) : RecordIdentity :=
  ⟨v.collection, v.key⟩

/-! ## Loaded image checks -/

def validateRawWorkLease (stored : StoredWork) : QueueResult Unit :=
  let leased := decide (stored.record.lifecycle = .leased)
  rejectIf (leased != stored.record.leaseExpiresAt.isSome || leased != stored.leaseHash.isSome)
    (unknown "inconsistent raw work lease authority")

def validateWorkRow (snapshot : RecordSnapshot) (entry : String × StoredWork) :
    QueueResult Unit := do
  validateRawWorkLease entry.2
  let _ ← entry.2.view
  rejectIf (entry.2.key != entry.1 || entry.2.record.version == 0 ||
      snapshot.versions[RecordIdentity.mk none entry.1]? != some entry.2.record.version ||
      entry.2.record.insertionSequence == 0 ||
      decide (entry.2.record.insertionSequence > snapshot.nextSequence))
    (unknown "inconsistent loaded work version/sequence authority")

def validateStateRow (snapshot : RecordSnapshot) (entry : (String × String) × StateRecord) :
    QueueResult Unit :=
  rejectIf (entry.2.collection != entry.1.1 || entry.2.key != entry.1.2 ||
      entry.2.version == 0 ||
      snapshot.versions[RecordIdentity.mk (some entry.1.1) entry.1.2]? != some entry.2.version)
    (unknown "inconsistent loaded state version authority")

def validateSnapshot (snapshot : RecordSnapshot) : QueueResult Unit := do
  forM snapshot.work.toList (validateWorkRow snapshot)
  forM snapshot.state.toList (validateStateRow snapshot)

/-- Every patched name must lie inside the loaded coverage of its row. -/
def checkPatch (candidate : RecordSnapshot) (key : String) (patch : WorkPatch) :
    QueueResult Unit :=
  match candidate.work[key]? with
  | some old => do
    let view ← old.view
    forM patch.fields.keys fun field => do
      let _ ← view.get field
      .ok ()
  | none => .ok ()

def checkUnclaimed (candidate : RecordSnapshot) (update : UnclaimedUpdate) :
    QueueResult Unit := do
  match update.change with
  | .patch patch => checkPatch candidate update.key patch
  | .administrative patch _ _ => do
    checkPatch candidate update.key patch
    rejectIf (patch.body.isSome && candidate.work[update.key]?.any fun work => !work.bodyLoaded)
      (unknown "administrative body authority not loaded")
  | _ => .ok ()

def validateGroupSnapshot (candidate : RecordSnapshot) (group : CommitGroup) :
    QueueResult Unit := do
  validateSnapshot candidate
  forM group.claimedUpdates fun update => checkPatch candidate update.key update.patch
  forM group.workUpdates (checkUnclaimed candidate)

/-! ## The addressed part of a snapshot -/

/-- Copy one work row with its high-water version. -/
def copyWork (source out : RecordSnapshot) (key : String) : RecordSnapshot :=
  let id : RecordIdentity := ⟨none, key⟩
  { out with
    work := copyEntry source.work out.work key
    versions := copyEntry source.versions out.versions id }

/-- Copy one state row with its high-water version. -/
def copyState (source out : RecordSnapshot) (key : String × String) : RecordSnapshot :=
  let id : RecordIdentity := ⟨some key.1, key.2⟩
  { out with
    state := copyEntry source.state out.state key
    versions := copyEntry source.versions out.versions id }

def workKeys (group : CommitGroup) : List String :=
  (group.claimedUpdates.map (·.key)) ++ (group.workUpdates.map (·.key)) ++
    (group.workInserts.map (·.key))

def stateKeys (group : CommitGroup) : List (String × String) :=
  group.stateUpdates.map fun u => (u.collection, u.key)

def addressedSnapshot (group : CommitGroup) (source : RecordSnapshot) : RecordSnapshot :=
  let start := { RecordSnapshot.empty with nextSequence := source.nextSequence }
  let work := (ExtTreeSet.ofList (workKeys group) compare).toList.foldl (copyWork source) start
  (stateKeys group).foldl (copyState source) work

end QueuePlanner
