import Fireweed.QueuePlanner.Apply

/-!
# Resolved writes and unique ownership

After a group is accepted its exact field and body commands are frozen, and the
unique tuples it releases and claims are computed from the old rows and the
commands.
-/

namespace QueuePlanner

open BTree Checked QueueContract QueueFields QueueIndex Std

/-! ## Field and body commands -/

def replacements (group : CommitGroup) : BTreeSet String :=
  ExtTreeSet.ofList (group.workUpdates.filterMap fun u =>
    match u.change with
    | .replace _ => some u.key
    | _ => none) compare

/-- The explicit body of each update, and whether it is administrative. -/
def bodyIntents (group : CommitGroup) : BTreeMap String (Option (List UInt8) × Bool) :=
  ExtTreeMap.ofList
    ((group.claimedUpdates.map fun u => (u.key, (u.patch.body, false))) ++
      group.workUpdates.map fun u => (u.key,
        match u.change with
        | .patch p => (p.body, false)
        | .administrative p _ _ => (p.body, true)
        | _ => (none, false))) compare

/-- Record a field whose value differs between the old view and the new row. -/
def collectEdit (view : CheckedFields) (row : StoredWork) (edits : FieldEdits) (field : String) :
    QueueResult FieldEdits := do
  let old ← view.get field
  let new := row.fields[field]?
  .ok (if valueEq old new then edits else edits.insert field new)

def resolveFields (old row : StoredWork) (definition : CollectionDefinition) :
    QueueResult ResolvedFields := do
  let view ← old.view
  let edits ← (old.fields.keys ++ row.fields.keys).foldlM (collectEdit view row) ∅
  resolveEdits view edits ∅ definition

def resolveBody (old : StoredWork) (intent : Option (List UInt8) × Bool) : ResolvedBody :=
  match intent.1 with
  | some body =>
    if intent.2 && old.bodyLoaded && old.record.work.body == body then .preserve
    else .replace body
  | none => .preserve

/-- The commands of one row: a new or replaced row is written whole. -/
def resolveRow (group : CommitGroup) (before : RecordSnapshot) (schema : QueueSchema)
    (row : StoredWork) : QueueResult (ResolvedFields × ResolvedBody) :=
  match before.work[row.key]? with
  | none => .ok (.replace row.fields, .replace row.record.work.body)
  | some old =>
    if (replacements group).contains row.key then
      .ok (.replace row.fields, .replace row.record.work.body)
    else do
      let change ← resolveFields old row schema.work
      let intent := (bodyIntents group)[row.key]?.getD (none, false)
      .ok (change, resolveBody old intent)

def addCommands (group : CommitGroup) (before : RecordSnapshot) (schema : QueueSchema)
    (delta : CommitDelta) (row : StoredWork) : QueueResult CommitDelta := do
  let (change, body) ← resolveRow group before schema row
  .ok { delta with
    workFields := delta.workFields.insert row.key change
    workBodies := delta.workBodies.insert row.key body }

/-- A body command must be what the row shows. -/
def validateBodyWrite (row : StoredWork) : ResolvedBody → QueueResult Unit
  | .replace body => rejectIf (!row.bodyLoaded || body != row.record.work.body)
      (unknown "resolved body command/view mismatch")
  | .preserve => .ok ()

/-- A field command must be what the row shows. -/
def validateFieldWrite (row : StoredWork) : ResolvedFields → QueueResult Unit
  | .replace replacement => rejectIf (!Fields.eq replacement row.fields)
      (unknown "resolved replacement/view mismatch")
  | .edit edits =>
    rejectIf (edits.toList.any fun entry => !valueEq row.fields[entry.1]? entry.2)
      (unknown "resolved field edit/view mismatch")
  | .preserve => .ok ()

def validateResolvedWrites (delta : CommitDelta) : QueueResult Unit := do
  let keys := ExtTreeSet.ofList (delta.work.map StoredWork.key) compare
  rejectIf (delta.workBodies.size != delta.work.length ||
      (delta.work.any fun row => !delta.workBodies.contains row.key) ||
      keys.size != delta.work.length || delta.workFields.size != delta.work.length ||
      (delta.work.any fun row => !delta.workFields.contains row.key))
    (unknown "inconsistent resolved work field commands")
  forM delta.work fun row => do
    let body ← index delta.workBodies row.key
    validateBodyWrite row body
    let change ← index delta.workFields row.key
    validateFieldWrite row change

/-- Freeze exact writes before ownership validation. -/
def resolveGroupWrites (group : CommitGroup) (before : RecordSnapshot) (delta : CommitDelta)
    (schema : QueueSchema) : QueueResult CommitDelta := do
  let delta ← delta.work.foldlM (addCommands group before schema) delta
  validateResolvedWrites delta
  .ok delta

def viewMismatch : QueueError := unknown "resolved command/view mismatch"

def countEdit (view : CheckedFields) (fields : Fields) (expected : Nat)
    (entry : String × Option FieldValue) : QueueResult Nat := do
  let previous ← view.get entry.1
  let expected := if previous.isNone && entry.2.isSome then expected + 1 else expected
  rejectIf (previous.isSome && entry.2.isNone && expected == 0) viewMismatch
  rejectIf (!valueEq fields[entry.1]? entry.2) viewMismatch
  .ok (if previous.isSome && entry.2.isNone then expected - 1 else expected)

/-- The body command against the old and new rows. -/
def validateBodyView (old : Option StoredWork) (row : StoredWork) (change : ResolvedBody) :
    QueueResult Unit :=
  match old, change with
  | _, .replace body =>
    rejectIf (!(row.bodyLoaded && body == row.record.work.body)) viewMismatch
  | some old, .preserve =>
    rejectIf (!(old.bodyLoaded == row.bodyLoaded &&
      old.record.work.body == row.record.work.body)) viewMismatch
  | none, .preserve => .error viewMismatch

/-- The field command against the old and new rows. -/
def validateFieldView (old : Option StoredWork) (row : StoredWork) (change : ResolvedFields) :
    QueueResult Unit :=
  match old, change with
  | _, .replace replacement => rejectIf (!Fields.eq replacement row.fields) viewMismatch
  | some old, .preserve => rejectIf (!Fields.eq old.fields row.fields) viewMismatch
  | some old, .edit edits => do
    let view ← old.view
    let expected ← edits.toList.foldlM (countEdit view row.fields) old.fields.size
    rejectIf (expected != row.fields.size || old.fields.toList.any fun entry =>
        !edits.contains entry.1 && !valueEq row.fields[entry.1]? (some entry.2)) viewMismatch
  | none, _ => .error viewMismatch

/-- Command against view, shared by planning and durable compilation. -/
def validateWorkWriteView (old : Option StoredWork) (row : StoredWork)
    (fieldsChange : ResolvedFields) (bodyChange : ResolvedBody) : QueueResult Unit := do
  validateBodyView old row bodyChange
  validateFieldView old row fieldsChange

/-! ## Unique tuples -/

/-- The tuple of one unique index, when complete. -/
def uniqueKey (message : String) (collection : Option String)
    (get : String → QueueResult (Option FieldValue)) (definition : CollectionDefinition)
    (index : String) : QueueResult (Option UniqueIdentity) :=
  match definition.indexes[index]? with
  | none => .error (unknown message)
  | some columns => do
    let values ← columns.mapM get
    if values.any Option.isNone then .ok none
    else do
      let key ← orderedKey values
      .ok (some ⟨collection, index, key⟩)

def uniqueKeys (message : String) (collection : Option String)
    (get : String → QueueResult (Option FieldValue)) (definition : CollectionDefinition) :
    QueueResult (List UniqueIdentity) := do
  let keys ← definition.uniqueIndexes.toList.mapM (uniqueKey message collection get definition)
  .ok keys.reduceOption

def recordUniqueKeys (collection : Option String) (fields : Fields)
    (definition : CollectionDefinition) : QueueResult (List UniqueIdentity) :=
  uniqueKeys "invalid unique schema" collection (fun field => .ok fields[field]?) definition

def checkedUniqueKeys (collection : Option String) (view : CheckedFields)
    (definition : CollectionDefinition) : QueueResult (List UniqueIdentity) :=
  uniqueKeys "missing unique index" collection view.get definition

structure UniqueFieldEffects where
  releases : BTreeMap UniqueIdentity RecordIdentity
  claims : List (UniqueIdentity × RecordIdentity)

namespace UniqueFieldEffects

def empty : UniqueFieldEffects := ⟨∅, []⟩

def release (owner : RecordIdentity) (effects : UniqueFieldEffects) (tuple : UniqueIdentity) :
    QueueResult UniqueFieldEffects := do
  rejectIf (effects.releases[tuple]?.any (· != owner))
    (unknown "contradictory released tuple ownership")
  .ok { effects with releases := effects.releases.insert tuple owner }

def claim (owner : RecordIdentity) (effects : UniqueFieldEffects) (tuple : UniqueIdentity) :
    UniqueFieldEffects :=
  { effects with claims := effects.claims ++ [(tuple, owner)] }

/-- Release the tuples of the first set and claim those of the second, both in order. -/
def exchange (owner : RecordIdentity) (effects : UniqueFieldEffects)
    (old new : BTreeSet UniqueIdentity) : QueueResult UniqueFieldEffects := do
  let effects ← (old.toList.filter fun t => !new.contains t).foldlM (release owner) effects
  .ok ((new.toList.filter fun t => !old.contains t).foldl (claim owner) effects)

def releaseBefore (owner : RecordIdentity) (effects : UniqueFieldEffects) (effect : IndexEffect) :
    QueueResult UniqueFieldEffects :=
  match effect.beforeUnique, effect.before with
  | true, some before => release owner effects ⟨owner.collection, effect.index, before⟩
  | _, _ => .ok effects

def claimAfter (owner : RecordIdentity) (effects : UniqueFieldEffects) (effect : IndexEffect) :
    UniqueFieldEffects :=
  match effect.afterUnique, effect.after with
  | true, some after => claim owner effects ⟨owner.collection, effect.index, after⟩
  | _, _ => effects

def extendOne (owner : RecordIdentity) (effects : UniqueFieldEffects) (effect : IndexEffect) :
    QueueResult UniqueFieldEffects := do
  rejectIf ((effect.beforeUnique && (!effect.unique || effect.before.isNone)) ||
      (effect.afterUnique && (!effect.unique || effect.after.isNone)))
    (unknown "invalid unique index effect eligibility")
  if !effect.unique || (effect.before == effect.after && effect.beforeUnique == effect.afterUnique)
  then .ok effects
  else do
    let effects ← releaseBefore owner effects effect
    .ok (claimAfter owner effects effect)

def extend (owner : RecordIdentity) (effects : UniqueFieldEffects)
    (indexEffects : List IndexEffect) : QueueResult UniqueFieldEffects :=
  indexEffects.foldlM (extendOne owner) effects

/-- A released tuple must be loaded and owned by its releaser. -/
def validateRelease (initial : RecordSnapshot) (entry : UniqueIdentity × RecordIdentity) :
    QueueResult Unit :=
  rejectIf (!initial.uniqueProbesLoaded.contains entry.1 ||
      initial.uniqueOwners[entry.1]? != some entry.2)
    (unknown "released unique tuple lacks initial owner authority")

/-- The claims seen so far, or the rejection that stopped the loop. -/
def validateClaim (effects : UniqueFieldEffects) (initial : RecordSnapshot)
    (claims : Except Rejection (BTreeMap UniqueIdentity RecordIdentity))
    (entry : UniqueIdentity × RecordIdentity) :
    QueueResult (Except Rejection (BTreeMap UniqueIdentity RecordIdentity)) :=
  match claims with
  | .error reason => .ok (.error reason)
  | .ok claims =>
    if !initial.uniqueProbesLoaded.contains entry.1 then
      .error (unknown "new unique tuple authority not loaded")
    else if claims[entry.1]?.any (· != entry.2) then .ok (.error .uniqueConflict)
    else
      match initial.uniqueOwners[entry.1]? with
      | some old =>
        if old != entry.2 && effects.releases[entry.1]? != some old then
          .ok (.error .uniqueConflict)
        else .ok (.ok (claims.insert entry.1 entry.2))
      | none => .ok (.ok (claims.insert entry.1 entry.2))

/-- Initial authority of the releases, then final ownership of the claims. -/
def validate (effects : UniqueFieldEffects) (initial : RecordSnapshot) :
    QueueResult (Except Rejection Unit) := do
  forM effects.releases.toList (validateRelease initial)
  let claims ← effects.claims.foldlM (validateClaim effects initial) (.ok ∅)
  .ok (claims.map fun _ => ())

end UniqueFieldEffects

def workRow (delta : CommitDelta) (key : String) : Option StoredWork :=
  (ExtTreeMap.ofList (delta.work.map fun row => (row.key, row)) compare)[key]?

def stateRow (delta : CommitDelta) (id : String × String) : Option StateRecord :=
  (ExtTreeMap.ofList (delta.state.map fun row => ((row.collection, row.key), row)) compare)[id]?

def workUniqueEffect (delta : CommitDelta) (original : RecordSnapshot) (schema : QueueSchema)
    (effects : UniqueFieldEffects) (key : String) : QueueResult UniqueFieldEffects := do
  let owner : RecordIdentity := ⟨none, key⟩
  match workRow delta key with
  | some row => do
    let change ← index delta.workFields key
    let body ← index delta.workBodies key
    validateWorkWriteView original.work[key]? row change body
    match original.work[key]? with
    | some old => do
      let view ← old.view
      if change.isReplace then do
        let oldKeys ← checkedUniqueKeys none view schema.work
        let newKeys ← recordUniqueKeys none row.fields schema.work
        effects.exchange owner (ExtTreeSet.ofList oldKeys compare)
          (ExtTreeSet.ofList newKeys compare)
      else do
        let indexEffects ← resolveIndexEffects view change schema.work
        effects.extend owner indexEffects
    | none => do
      rejectIf (!change.isReplace || !body.isReplace)
        (unknown "partial field command cannot insert")
      let newKeys ← recordUniqueKeys none row.fields schema.work
      .ok (newKeys.foldl (UniqueFieldEffects.claim owner) effects)
  | none =>
    match original.work[key]? with
    | some old => do
      let view ← old.view
      let oldKeys ← checkedUniqueKeys none view schema.work
      oldKeys.foldlM (UniqueFieldEffects.release owner) effects
    | none => .ok effects

def stateUniqueKeys (collection : String) (row : Option StateRecord)
    (definition : CollectionDefinition) : QueueResult (List UniqueIdentity) :=
  match row with
  | some row => recordUniqueKeys (some collection) row.fields definition
  | none => .ok []

def stateUniqueEffect (delta : CommitDelta) (original : RecordSnapshot) (schema : QueueSchema)
    (effects : UniqueFieldEffects) (collection key : String) : QueueResult UniqueFieldEffects :=
  match schema.state[collection]? with
  | none => .error (unknown "missing state schema")
  | some definition => do
    let old ← stateUniqueKeys collection original.state[(collection, key)]? definition
    let new ← stateUniqueKeys collection (stateRow delta (collection, key)) definition
    effects.exchange ⟨some collection, key⟩ (ExtTreeSet.ofList old compare)
      (ExtTreeSet.ofList new compare)

def uniqueEffect (delta : CommitDelta) (original : RecordSnapshot) (schema : QueueSchema)
    (effects : UniqueFieldEffects) (version : RecordVersion) : QueueResult UniqueFieldEffects :=
  match version.collection with
  | none => workUniqueEffect delta original schema effects version.key
  | some collection => stateUniqueEffect delta original schema effects collection version.key

/-- Initial-to-final ownership effects; version changes alone release nothing. -/
def uniqueEffects (delta : CommitDelta) (original : RecordSnapshot) (schema : QueueSchema) :
    QueueResult UniqueFieldEffects := do
  validateResolvedWrites delta
  delta.versions.foldlM (uniqueEffect delta original schema) .empty

def validateUniques (delta : CommitDelta) (original : RecordSnapshot) (schema : QueueSchema) :
    QueueResult (Except Rejection (List (UniqueIdentity × RecordIdentity))) := do
  let effects ← uniqueEffects delta original schema
  let outcome ← effects.validate original
  .ok (outcome.map fun _ => effects.claims)

end QueuePlanner
