import Fireweed.Runs
import Fireweed.Projection.Mutations

/-!
# Pre-commit checks and runs of the projection

A command is logged and applied only after its check against the current
projection has passed; there is no rollback. An action is a request together with
its check: it yields the command that is applied, or nothing happens. Reaping
terminal items is the one change that is not a command.
-/

namespace Projection

open BTree Checked Domain Engine Runs Scripts Std

variable {Priority Value Typed : Type}

section Checks

variable (definition : QueueDefinition Priority Value Typed)
  (data : ProjectionData Priority Value Typed)

/-- An item that can be renewed, reassigned or finalised. -/
def validateLeasedItem (id : ItemId) : EngineResult Unit :=
  match data.items[id]? with
  | none => .error .notFound
  | some record =>
    if record.fenced then .error .staleLease
    else if record.state.isTerminal then .error .terminal
    else if record.superseded then .error .superseded
    else if record.state ≠ .leased then .error (.invalid "item is not leased")
    else .ok ()

def validateLeased (ids : List ItemId) : EngineResult Unit := forM ids (validateLeasedItem data)

def finalizeValidate (outcomes : List FinalizeOutcome) : EngineResult Unit :=
  validateLeased data (outcomes.map FinalizeOutcome.itemId)

def renewValidate (ids : List ItemId) : EngineResult Unit := validateLeased data ids

def reassignValidate (ids : List ItemId) : EngineResult Unit := validateLeased data ids

def updateFieldsValidate (id : ItemId) (expectedItemVersion : Option UInt64) : EngineResult Unit :=
  match data.items[id]? with
  | none => .error .notFound
  | some record =>
    if record.fenced then .error .staleLease
    else if record.state.isTerminal then .error .terminal
    else if record.superseded then .error .superseded
    else if expectedItemVersion.any fun version => record.itemVersion != version then
      .error .conflict
    else .ok ()

/-- The keys of a pushed item collide with no other item and with no earlier item of the batch. -/
def indexValidatePushItem (batch : BTreeMap IndexKey ItemId)
    (item : PushItem Priority Value Typed) : EngineResult (BTreeMap IndexKey ItemId) := do
  let keys ← definition.recordIndexKeys item.fields item.indexFields item.entityDocument
  keys.foldlM (fun batch key =>
    if data.indexes.kind key.1 = some true then do
      rejectIf ((uniqueHolder data key).any fun holder => holder != item.itemId) .conflict
      rejectIf (batch[key]?.any fun other => other != item.itemId) .conflict
      .ok (batch.insert key item.itemId)
    else .ok batch) batch

def indexValidatePush (items : List (PushItem Priority Value Typed)) : EngineResult Unit := do
  let _ ← items.foldlM (indexValidatePushItem definition data) ∅
  .ok ()

def indexValidateUpdateWithEntity (id : ItemId) (fieldOps : BTreeMap String (Option Bytes))
    (entity : Option Value) : EngineResult Unit :=
  match data.items[id]? with
  | none => .error .notFound
  | some record =>
    indexValidateWithEntity definition data id (ProjectionData.applyFieldOps record.fields fieldOps)
      (entity.or record.entityDocument) none

def indexValidateReplace (supersededItemId : ItemId)
    (replacement : PushItem Priority Value Typed) : EngineResult Unit :=
  indexValidateWithEntity definition data replacement.itemId replacement.fields
    replacement.entityDocument (some supersededItemId)

/-- The positions a batch update loses: entries that are refused by themselves, and entries that
claim a unique key another entry claims. The keys of the entries are taken from the native fields
the item has before the update. -/
structure Preflight where
  refused : List Nat
  batch : BTreeMap IndexKey Nat

/-- Enter a unique key of an entry; an entry that had it before is refused together with this one.
-/
def preflightKey (position : Nat) (state : Preflight) (key : IndexKey) : Preflight :=
  if data.indexes.kind key.1 = some true then
    { refused := match state.batch[key]? with
        | some previous => previous :: position :: state.refused
        | none => state.refused
      batch := state.batch.insert key position }
  else state

def preflightEntry (state : Preflight) (entry : UpdateFieldsCommand Priority Value × Nat) :
    EngineResult Preflight :=
  let update := entry.1
  let refuse : EngineResult Preflight := .ok { state with refused := entry.2 :: state.refused }
  match data.items[update.itemId]? with
  | none => refuse
  | some record =>
    if record.state ≠ .pending ∨ record.fenced ∨ record.superseded then refuse
    else
      let fields :=
        ProjectionData.applyFieldOps (update.setFields.getD record.fields) update.fieldOps
      let entity := update.setEntityDocument.or record.entityDocument
      match indexValidateWithEntity definition data update.itemId fields entity none with
      | .error .conflict => refuse
      | .error e => .error e
      | .ok () => do
        let keys ← definition.recordIndexKeys fields record.indexFields entity
        .ok (keys.foldl (preflightKey data entry.2) state)

def batchUpdatePreflight (updates : List (UpdateFieldsCommand Priority Value)) :
    EngineResult (List (UpdateFieldsCommand Priority Value)) := do
  let state ← updates.zipIdx.foldlM (preflightEntry definition data) ⟨[], ∅⟩
  .ok ((updates.zipIdx.filter fun entry => !state.refused.contains entry.2).map Prod.fst)

/-- The resident ids among those named, each once; a leased item is purged by force only. -/
def purgeValidate (force : Bool) (ids : List ItemId) : EngineResult (List ItemId) :=
  ids.foldlM (fun present id =>
    if present.contains id then .ok present
    else match data.itemState id with
      | none => .ok present
      | some state => do
        rejectIf (decide (state = .leased) && !force) .conflict
        .ok (present ++ [id])) []

/-- What an upsert does: push a new item, or replace the pending item that has the key. -/
def replaceIfPending (item : PushItem Priority Value Typed) :
    EngineResult (QueueCommand Priority Value Typed) :=
  match data.lookupByKey item.clientItemKey with
  | none => do
    indexValidateWithEntity definition data item.itemId item.fields item.entityDocument none
    .ok (.push [item])
  | some existing =>
    match data.itemState existing with
    | none => .error .notFound
    | some .pending => do
      indexValidateReplace definition data existing item
      .ok (.replacePending item.clientItemKey existing item)
    | some .leased => .error (.invalid "collision with claimed item")
    | some .complete | some .failed => .error .terminal

end Checks

/-! ## Reaping -/

def timestampToMs (t : UtcTimestamp) : Int :=
  t.seconds.toInt * 1000 + (t.nanoseconds.toNat / 1000000 : Nat)

/-- Whole milliseconds only: the rest of the nanoseconds is cut off. -/
def addMillis (t : UtcTimestamp) (ms : UInt64) : UtcTimestamp where
  seconds := Int64.ofInt ((timestampToMs t + ms.toNat) / 1000)
  nanoseconds := UInt32.ofNat (((timestampToMs t + ms.toNat) % 1000).toNat * 1000000)
  normal := by
    have small : ((timestampToMs t + ms.toNat) % 1000).toNat < 1000 := by omega
    rw [UInt32.lt_iff_toNat_lt, UInt32.toNat_ofNat_of_lt'] <;> simp [UInt32.size] <;> omega

structure ReapRequest where
  now : UtcTimestamp
  terminalRetentionMs : UInt64
  emitChangeRecords : Bool
  emissionCursor : Option CommandPosition

def terminalIsReapable (request : ReapRequest) (record : ItemRecord Priority Value Typed) : Bool :=
  match record.terminalAt with
  | none => false
  | some terminalAt =>
    if request.now < addMillis terminalAt request.terminalRetentionMs then false
    else if !request.emitChangeRecords then true
    else match record.terminalPosition with
      | none => false
      | some position => request.emissionCursor.any fun cursor => !cursor.precedes position

/-- The terminal items whose retention has passed. -/
def reapableIds (data : ProjectionData Priority Value Typed) (request : ReapRequest) :
    List ItemId :=
  (data.items.toList.filter fun entry => entry.2.state.isTerminal && !entry.2.superseded &&
    terminalIsReapable request entry.2).map Prod.fst

/-! ## Actions -/

inductive Action (Priority Value Typed : Type) where
  | push (items : List (PushItem Priority Value Typed))
  | upsert (item : PushItem Priority Value Typed)
  | claim (itemIds : List ItemId) (leaseToken : LeaseToken) (leaseExpiresAt : UtcTimestamp)
  | cohortClaim (itemIds : List ItemId) (leaseToken : LeaseToken) (leaseExpiresAt : UtcTimestamp)
  | renew (itemIds : List ItemId) (leaseExpiresAt : UtcTimestamp)
  | reassign (itemIds : List ItemId) (leaseToken : LeaseToken) (leaseExpiresAt : UtcTimestamp)
  | updateFields (update : UpdateFieldsCommand Priority Value) (expectedItemVersion : Option UInt64)
  | batchUpdate (updates : List (UpdateFieldsCommand Priority Value))
  | mutateItems (request : ItemMutationRequest Priority Value)
  | finalize (outcomes : List FinalizeOutcome)
  | expireLeases (itemIds : List ItemId)
  | expireCohort (groupKey : GroupKey)
  | fence (itemIds : List ItemId)
  | unfence (itemIds : List ItemId)
  | pause (drainIntake : Bool)
  | resume
  | setGates (change : GateChange)
  | purge (itemIds : List ItemId) (force : Bool)
  | reap (request : ReapRequest)

/-- A push brings its own ids; they are fresh. -/
def freshIds (data : ProjectionData Priority Value Typed)
    (items : List (PushItem Priority Value Typed)) : Bool :=
  items.all (fun item => !data.items.contains item.itemId) &&
    decide (items.map PushItem.itemId).Nodup

/-- The item of an upsert has no cohort, no gates and no native index fields. -/
def upsertItem (item : PushItem Priority Value Typed) : PushItem Priority Value Typed :=
  { item with cohortSize := none, gateKeys := [], indexFields := ∅ }

variable [DecidableEq Priority] [DecidableEq Value]
  (definition : QueueDefinition Priority Value Typed)

/-- The pre-commit check of an action and the edits it then makes. Claims, expiries, fences and gate
changes have no check of their own; a dry run is planned and not committed. -/
def admitAction (data : ProjectionData Priority Value Typed) :
    Action Priority Value Typed → EngineResult (List (Edit Priority Value Typed))
  | .push items => do
    rejectIf (!freshIds data items) .conflict
    indexValidatePush definition data items
    .ok (data.edits (.push items))
  | .upsert item => do
    rejectIf (!freshIds data [item]) .conflict
    let command ← replaceIfPending definition data (upsertItem item)
    .ok (data.edits command)
  | .claim ids token expires => .ok (data.edits (.claim ids token expires))
  | .cohortClaim ids token expires => .ok (data.edits (.cohortClaim ids token expires))
  | .renew ids expires => do
    renewValidate data ids
    .ok (data.edits (.renewLease ids expires))
  | .reassign ids token expires => do
    reassignValidate data ids
    .ok (data.edits (.reassignLease ids token expires))
  | .updateFields update expectedItemVersion => do
    updateFieldsValidate data update.itemId expectedItemVersion
    indexValidateUpdateWithEntity definition data update.itemId update.fieldOps
      update.setEntityDocument
    .ok (data.edits (.updateFields update))
  | .batchUpdate updates => do
    let accepted ← batchUpdatePreflight definition data updates
    .ok (data.edits (.updateFieldsBatch accepted))
  | .mutateItems request => do
    let plan ← planItemMutation definition data request
    .ok (if request.dryRun then [] else data.edits (.mutateItems plan.items plan.gateChanges))
  | .finalize outcomes => do
    finalizeValidate data outcomes
    .ok (data.edits (.finalize outcomes))
  | .expireLeases ids => .ok (data.edits (.leaseExpired ids))
  | .expireCohort groupKey => .ok (data.edits (.cohortExpired groupKey))
  | .fence ids => .ok (data.edits (.fenceLease ids))
  | .unfence ids => .ok (data.edits (.unfenceLease ids))
  | .pause drainIntake => .ok (data.edits (.pauseQueue drainIntake))
  | .resume => .ok (data.edits .resumeQueue)
  | .setGates change => .ok (data.edits (.setGates change))
  | .purge ids force => do
    let present ← purgeValidate data force ids
    .ok (data.edits (.purgeItems present))
  | .reap request => .ok ((reapableIds data request).map .purge)

/-- An admitted action is applied to its end or to the edit that fails. -/
def Step (data : ProjectionData Priority Value Typed) (action : Stamp × Action Priority Value Typed)
    (next : ProjectionData Priority Value Typed) : Prop :=
  ∃ edits, admitAction definition data action.2 = .ok edits ∧
    next = (run (ProjectionData.applyEdit definition action.1) data edits).state

/-- The state after an action that is admitted. -/
def perform (data : ProjectionData Priority Value Typed)
    (action : Stamp × Action Priority Value Typed) : Option (ProjectionData Priority Value Typed) :=
  (admitAction definition data action.2).toOption.map fun edits =>
    (run (ProjectionData.applyEdit definition action.1) data edits).state

theorem perform_step (data : ProjectionData Priority Value Typed)
    (action : Stamp × Action Priority Value Typed) (next : ProjectionData Priority Value Typed)
    (done : perform definition data action = some next) : Step definition data action next := by
  obtain ⟨edits, admitted, rfl⟩ := Option.map_eq_some_iff.mp done
  exact ⟨edits, toOption_eq_some.mp admitted, rfl⟩

/-- The states a queue passes through from its creation. -/
abbrev Reaches (actions : List (Stamp × Action Priority Value Typed))
    (data : ProjectionData Priority Value Typed) : Prop :=
  Run (Step definition) (.new definition) actions data

end Projection
