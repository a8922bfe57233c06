import Fireweed.QueuePlanner.Resolve

/-!
# Planning commit groups

The planner proper: a group is applied to the addressed part of the snapshot, its
writes are resolved, its unique tuples are validated, and only then is the delta
merged. A function that mutates the snapshot returns it next to its result, so
that the image left behind by a failure is part of the model.
-/

namespace QueuePlanner

open BTree Checked QueueContract QueueFields Std

/-! ## Merging -/

/-- The stored row a delta row becomes: the commands applied to the old row's view. -/
def mergeRow (old : Option StoredWork) (row : StoredWork) (change : ResolvedFields)
    (body : ResolvedBody) : StoredWork :=
  let fields := old.elim ∅ StoredWork.fields
  let coverage := old.elim (.selected ∅ ∅) StoredWork.fieldCoverage
  let oldBody := old.elim row.record.work.body fun o => o.record.work.body
  let loaded := old.elim row.bodyLoaded StoredWork.bodyLoaded
  let (fields, coverage) := applyToView fields coverage change
  let (bytes, loaded) := body.applyToView oldBody loaded
  { row with
    record := { row.record with work := { row.record.work with fields := fields, body := bytes } }
    fieldCoverage := coverage
    bodyLoaded := loaded }

def mergeWorkRow (snapshot : RecordSnapshot) (delta : CommitDelta) (row : StoredWork) :
    QueueResult StoredWork := do
  let change ← index delta.workFields row.key
  let body ← index delta.workBodies row.key
  .ok (mergeRow snapshot.work[row.key]? row change body)

/-- The mutations of a merge, after every fallible step. -/
def writeDelta (snapshot : RecordSnapshot) (delta : CommitDelta) (released : List UniqueIdentity)
    (additions : List (UniqueIdentity × RecordIdentity)) (merged : List StoredWork) :
    RecordSnapshot where
  uniqueOwners :=
    additions.foldl (fun owners entry => owners.insert entry.1 entry.2)
      (released.foldl (fun owners tuple => owners.erase tuple) snapshot.uniqueOwners)
  work :=
    merged.foldl (fun work row => work.insert row.key row)
      (delta.deletedWork.foldl (fun work key => work.erase key) snapshot.work)
  state :=
    delta.state.foldl (fun state row => state.insert (row.collection, row.key) row)
      (delta.deletedState.foldl (fun state key => state.erase key) snapshot.state)
  versions :=
    delta.versions.foldl (fun versions v => versions.insert (versionIdentity v) v.version)
      snapshot.versions
  nextSequence := delta.nextSequence
  uniqueProbesLoaded := snapshot.uniqueProbesLoaded

/-- The fallible prelude of a merge. -/
def prepareMerge (snapshot : RecordSnapshot) (delta : CommitDelta) (schema : QueueSchema) :
    QueueResult (UniqueFieldEffects × List StoredWork) := do
  let effects ← uniqueEffects delta snapshot schema
  let merged ← delta.work.mapM (mergeWorkRow snapshot delta)
  .ok (effects, merged)

def mergeDelta (snapshot : RecordSnapshot) (delta : CommitDelta)
    (additions : List (UniqueIdentity × RecordIdentity)) (schema : QueueSchema) :
    QueueResult Unit × RecordSnapshot :=
  match prepareMerge snapshot delta schema with
  | .error e => (.error e, snapshot)
  | .ok (effects, merged) =>
    (.ok (), writeDelta snapshot delta effects.releases.keys additions merged)

section Planning

variable [Sha256]

/-- The fallible steps between acceptance and merge. -/
def resolveAndValidate (group : CommitGroup) (snapshot : RecordSnapshot) (delta : CommitDelta)
    (schema : QueueSchema) :
    QueueResult (CommitDelta × Except Rejection (List (UniqueIdentity × RecordIdentity))) := do
  let delta ← resolveGroupWrites group snapshot delta schema
  let outcome ← validateUniques delta snapshot schema
  .ok (delta, outcome)

/-- A rejected group still has a durable receipt. -/
def rejectedDelta (group : CommitGroup) (snapshot : RecordSnapshot) (reason : Rejection) :
    CommitDelta :=
  .unchanged snapshot.nextSequence ⟨group.requestId, .rejected reason⟩

def planCommitGroup (group : CommitGroup) (snapshot : RecordSnapshot) (now : Int64)
    (schema : QueueSchema) : QueueResult CommitDelta × RecordSnapshot :=
  let candidate := addressedSnapshot group snapshot
  match validateGroupSnapshot candidate group with
  | .error e => (.error e, snapshot)
  | .ok () =>
    match applyGroup now schema group candidate with
    | .error reason => (.ok (rejectedDelta group snapshot reason), snapshot)
    | .ok (delta, _) =>
      match resolveAndValidate group snapshot delta schema with
      | .error e => (.error e, snapshot)
      | .ok (_, .error reason) => (.ok (rejectedDelta group snapshot reason), snapshot)
      | .ok (delta, .ok additions) =>
        match mergeDelta snapshot delta additions schema with
        | (.error e, snapshot) => (.error e, snapshot)
        | (.ok (), snapshot) => (.ok delta, snapshot)

/-- The complete tuples whose ownership must be loaded before a group is planned. -/
def requiredUniqueProbes (group : CommitGroup) (snapshot : RecordSnapshot) (now : Int64)
    (schema : QueueSchema) : QueueResult (BTreeSet UniqueIdentity) := do
  let candidate := addressedSnapshot group snapshot
  validateGroupSnapshot candidate group
  match applyGroup now schema group candidate with
  | .error _ => .ok ∅
  | .ok (delta, _) => do
    let delta ← resolveGroupWrites group snapshot delta schema
    let effects ← uniqueEffects delta snapshot schema
    .ok (ExtTreeSet.ofList (effects.releases.keys ++ effects.claims.map Prod.fst) compare)

/-! ## Insert vectors -/

def insertGroup (request : InsertRequest) (snapshot : RecordSnapshot) (item : NewWork) :
    CommitGroup :=
  let carrier : CommitGroup := ⟨"", [], [], [item], [], none⟩
  match request.mode, snapshot.work[item.key]? with
  | .upsert, some old =>
    { carrier with
      workInserts := []
      workUpdates := [⟨item.key, .version old.record.version, .replace item⟩] }
  | _, _ => carrier

def insertOutcome (item : NewWork) (replaced : Bool) (delta : CommitDelta) :
    QueueResult InsertOutcome :=
  match delta.receipt.outcome with
  | .committed versions =>
    match versions.head? with
    | none => .error (.outcomeUnknown "missing insert version")
    | some first => .ok (if replaced then .replaced item.key first.version
        else .inserted item.key first.version)
  | .rejected reason => .ok (.rejected item.key reason)
  | _ => .error (.outcomeUnknown "invalid planned insert outcome")

/-- Plan one item; the clock is read once per item. -/
def planInsertItem (request : InsertRequest) (schema : QueueSchema) (now : QueueResult Int64)
    (snapshot : RecordSnapshot) (item : NewWork) :
    QueueResult (CommitDelta × InsertOutcome) × RecordSnapshot :=
  match now with
  | .error e => (.error e, snapshot)
  | .ok time =>
    match planCommitGroup (insertGroup request snapshot item) snapshot time schema with
    | (.error e, snapshot') => (.error e, snapshot')
    | (.ok delta, snapshot') =>
      ((insertOutcome item snapshot.work[item.key]?.isSome delta).map fun outcome =>
        (delta, outcome), snapshot')

/-- The item loop, with the clock as the sequence of its readings. -/
def planInsertItems (request : InsertRequest) (schema : QueueSchema) :
    List NewWork → (Nat → QueueResult Int64) → RecordSnapshot →
      QueueResult (List CommitDelta × List InsertOutcome) × RecordSnapshot
  | [], _, snapshot => (.ok ([], []), snapshot)
  | item :: items, now, snapshot =>
    match planInsertItem request schema (now 0) snapshot item with
    | (.error e, snapshot) => (.error e, snapshot)
    | (.ok (delta, outcome), snapshot) =>
      match planInsertItems request schema items (fun i => now (i + 1)) snapshot with
      | (.error e, snapshot) => (.error e, snapshot)
      | (.ok (deltas, outcomes), snapshot) => (.ok (delta :: deltas, outcome :: outcomes), snapshot)

def planInsertVector (request : InsertRequest) (snapshot : RecordSnapshot) (schema : QueueSchema)
    (now : Nat → QueueResult Int64) :
    QueueResult (List CommitDelta × List InsertOutcome) × RecordSnapshot :=
  planInsertItems request schema request.items now snapshot

end Planning

/-! ## Read closure -/

section ReadClosure

/-- The columns of every unique work index. -/
def uniqueColumns (schema : QueueSchema) : QueueResult (List String) := do
  let columns ← schema.work.uniqueIndexes.toList.mapM fun name =>
    match schema.work.indexes[name]? with
    | some columns => .ok columns
    | none => .error (unknown "missing unique index read authority")
  .ok columns.flatten

variable (definition : CollectionDefinition) (unique : List String)

/-- The names a patch reads: its own, and every column of an index it touches. -/
def patchNames (patch : WorkPatch) : List String :=
  patch.fields.keys ++
    ((definition.indexes.toList.map Prod.snd).filter fun columns =>
      columns.any patch.fields.contains).flatten

def claimedNames (update : ClaimedUpdate) : List String :=
  (if update.disposition = .delete then unique else []) ++ patchNames definition update.patch

def unclaimedNames (update : UnclaimedUpdate) : List String :=
  match update.change with
  | .patch patch => patchNames definition patch
  | .administrative patch _ _ => patchNames definition patch
  | .replace _ => unique
  | .delete => unique

end ReadClosure

/-- Union names into the entry of a key. -/
def addNames (output : BTreeMap String (BTreeSet String)) (entry : String × List String) :
    BTreeMap String (BTreeSet String) :=
  output.insert entry.1 ((output[entry.1]?.getD ∅).insertMany entry.2)

/-- The fields each addressed work row must have loaded. -/
def requiredWorkFieldsByKey (group : CommitGroup) (schema : QueueSchema) :
    QueueResult (BTreeMap String (BTreeSet String)) := do
  let unique ← uniqueColumns schema
  let entries :=
    (group.claimedUpdates.map fun u => (u.key, claimedNames schema.work unique u)) ++
    (group.workUpdates.map fun u => (u.key, unclaimedNames schema.work unique u)) ++
    (group.workInserts.map fun w => (w.key, unique))
  .ok (entries.foldl addNames ∅)

/-! ## A small image -/

/-- SHA-256 on the tokens of the samples. -/
@[reducible] def sampleSha256 : Sha256 where
  digest token :=
    if token = [1] then
      ⟨[75, 245, 18, 47, 52, 69, 84, 197, 59, 222, 46, 187, 140, 210, 183, 227, 209, 96, 10, 214,
        49, 195, 133, 165, 215, 204, 226, 60, 119, 133, 69, 154], rfl⟩
    else if token = [2] then
      ⟨[219, 193, 180, 201, 0, 255, 228, 141, 87, 91, 93, 165, 198, 56, 4, 1, 37, 246, 93, 176,
        254, 62, 36, 73, 75, 118, 234, 152, 100, 87, 217, 134], rfl⟩
    else ⟨List.replicate 32 0, rfl⟩

/-- One pending row at version one. -/
def sampleRow (fields : Fields) (coverage : FieldCoverage) : StoredWork where
  record := ⟨⟨"k", 0, 0, fields, []⟩, 1, 1, .pending, 0, 0, none⟩
  leaseHash := none
  fieldCoverage := coverage
  bodyLoaded := true

def sampleSnapshot (row : StoredWork) : RecordSnapshot where
  work := .ofList [("k", row)] compare
  state := ∅
  versions := .ofList [(⟨none, "k"⟩, 1)] compare
  nextSequence := 1
  uniqueProbesLoaded := ∅
  uniqueOwners := ∅

def samplePatch (edits : FieldEdits) : CommitGroup :=
  ⟨"r", [], [], [], [⟨"k", .version 1, .patch ⟨none, none, edits, none⟩⟩], none⟩

/-- A group that inserts a record with a value of the unique field. -/
def sampleInsert (key : String) (a : Int64) : CommitGroup :=
  ⟨"r", [], [], [⟨key, 0, 0, .ofList [("a", .integer a)] compare, []⟩], [], none⟩

end QueuePlanner
