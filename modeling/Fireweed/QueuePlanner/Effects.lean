import Fireweed.QueuePlanner.Plan

/-!
# What one update does

Every update of a group decides from its own record alone: the row, its
high-water version and the sequence counter. Its outcome is at most one effect,
the new version and image of that record. A group that addresses each record once
is therefore the list of the effects its updates have on the initial snapshot.
-/

namespace QueuePlanner

open List hiding map_map mem_iff_get
open BTree Checked QueueContract QueueFields Std

/-- The new image of a record. -/
inductive RowChange where
  | putWork (row : StoredWork)
  | deleteWork
  | putState (row : StateRecord)
  | deleteState

structure Effect where
  identity : RecordIdentity
  version : UInt64
  change : RowChange

/-- The part of a snapshot that belongs to one record. -/
structure Cell where
  work : Option StoredWork
  state : Option StateRecord
  highWater : Option UInt64

def RecordSnapshot.cell (snapshot : RecordSnapshot) (id : RecordIdentity) : Cell where
  work := if id.collection.isNone then snapshot.work[id.key]? else none
  state := id.collection.bind fun collection => snapshot.state[(collection, id.key)]?
  highWater := snapshot.versions[id]?

inductive GroupUpdate where
  | claimed (update : ClaimedUpdate)
  | state (update : StateUpdate)
  | unclaimed (update : UnclaimedUpdate)
  | insert (work : NewWork)

def GroupUpdate.identity : GroupUpdate → RecordIdentity
  | claimed u => ⟨none, u.key⟩
  | state u => ⟨some u.collection, u.key⟩
  | unclaimed u => ⟨none, u.key⟩
  | insert w => ⟨none, w.key⟩

/-- The updates of a group in the order in which they are applied. -/
def updates (group : CommitGroup) : List GroupUpdate :=
  group.claimedUpdates.map .claimed ++ group.stateUpdates.map .state ++
    group.workUpdates.map .unclaimed ++ group.workInserts.map .insert

section Local

variable [Sha256] (now : Int64) (schema : QueueSchema)

def StoredWork.withVersion (stored : StoredWork) (version : UInt64) : StoredWork :=
  { stored with record := { stored.record with version := version } }

def takeVersion (cell : Cell) : Except Rejection UInt64 :=
  increment (cell.highWater.getD 0) "record version exhausted"

def takeSequence (sequence : UInt64) : Except Rejection UInt64 :=
  increment sequence "sequence exhausted"

def claimedEffect (cell : Cell) (update : ClaimedUpdate) : Except Rejection (Option Effect) := do
  let stored ← require cell.work .notFound
  rejectIf (staleCredential stored now update.lease.token) .staleLease
  rejectIf (stored.record.version != update.expectedVersion) .versionConflict
  if update.disposition = .check then .ok none
  else
    let version ← takeVersion cell
    let disposed ← dispose now schema ((patchWork stored update.patch).withVersion version)
      update.disposition
    .ok (some ⟨⟨none, update.key⟩, version, disposed.elim .deleteWork .putWork⟩)

def stateEffect (cell : Cell) (update : StateUpdate) : Except Rejection (Option Effect) := do
  expectState (cell.state.map StateRecord.version) update.expect
  let id : RecordIdentity := ⟨some update.collection, update.key⟩
  match update.change with
  | .check => .ok none
  | .put fields value => do
    let version ← takeVersion cell
    .ok (some ⟨id, version, .putState ⟨update.collection, update.key, version, fields, value⟩⟩)
  | .delete => do
    let version ← takeVersion cell
    .ok (some ⟨id, version, .deleteState⟩)

def keptVersion (cell : Cell) (current : UInt64) (changed : Bool) : Except Rejection UInt64 :=
  if changed then takeVersion cell else .ok current

def unclaimedEffect (cell : Cell) (sequence : UInt64) (update : UnclaimedUpdate) :
    Except Rejection (Effect × UInt64) := do
  let stored ← require cell.work .notFound
  expectState (some stored.record.version) update.expect
  let id : RecordIdentity := ⟨none, update.key⟩
  match update.change with
  | .administrative patch lifecycle leaseGuard => do
    let (changed, stored') ← applyAdministrativeUpdate stored patch lifecycle leaseGuard now
    let version ← keptVersion cell stored.record.version changed
    .ok (⟨id, version, .putWork (stored'.withVersion version)⟩, sequence)
  | .patch patch => do
    rejectIf (stored.active now) .leased
    let version ← takeVersion cell
    .ok (⟨id, version, .putWork ((patchWork (expireLease stored) patch).withVersion version)⟩,
      sequence)
  | .replace work => do
    rejectIf (stored.active now) .leased
    let version ← takeVersion cell
    match stored.record.lifecycle with
    | .completed | .failed => .error .terminal
    | .leased => .error .leased
    | .pending => do
      rejectIf (work.key != update.key) (.invalid "replacement key mismatch")
      let sequence ← takeSequence sequence
      .ok (⟨id, version, .putWork (freshWork work version sequence now)⟩, sequence)
  | .delete => do
    rejectIf (stored.active now) .leased
    let version ← takeVersion cell
    .ok (⟨id, version, .deleteWork⟩, sequence)

def insertEffect (cell : Cell) (sequence : UInt64) (work : NewWork) :
    Except Rejection (Effect × UInt64) := do
  rejectIf cell.work.isSome .alreadyExists
  let version ← takeVersion cell
  let sequence ← takeSequence sequence
  .ok (⟨⟨none, work.key⟩, version, .putWork (freshWork work version sequence now)⟩, sequence)

/-- The effect of an update on its record, and the sequence counter after it. -/
def GroupUpdate.effect (cell : Cell) (sequence : UInt64) :
    GroupUpdate → Except Rejection (Option Effect × UInt64)
  | .claimed u => (claimedEffect now schema cell u).map fun effect => (effect, sequence)
  | .state u => (stateEffect cell u).map fun effect => (effect, sequence)
  | .unclaimed u => (unclaimedEffect now cell sequence u).map fun (e, seq) => (some e, seq)
  | .insert w => (insertEffect now cell sequence w).map fun (e, seq) => (some e, seq)

/-- The effects of a list of updates, each on its record of one and the same snapshot. -/
def planEffects (snapshot : RecordSnapshot) :
    UInt64 → List GroupUpdate → Except Rejection (List Effect × UInt64)
  | sequence, [] => .ok ([], sequence)
  | sequence, update :: rest => do
    let (effect, sequence) ← update.effect now schema (snapshot.cell update.identity) sequence
    let (effects, sequence) ← planEffects snapshot sequence rest
    .ok (effect.toList ++ effects, sequence)

def applyUpdate (plan : Plan) : GroupUpdate → Except Rejection Plan
  | .claimed u => applyClaimed now schema plan u
  | .state u => applyState plan u
  | .unclaimed u => applyUnclaimed now plan u
  | .insert w => applyInsert now plan w

end Local

/-! ## Deltas of effects -/

namespace Effect

def workRow? (effect : Effect) : Option StoredWork :=
  match effect.change with
  | .putWork row => some row
  | _ => none

def deletedWork? (effect : Effect) : Option String :=
  match effect.change with
  | .deleteWork => some effect.identity.key
  | _ => none

def stateRow? (effect : Effect) : Option StateRecord :=
  match effect.change with
  | .putState row => some row
  | _ => none

def deletedState? (effect : Effect) : Option (String × String) :=
  match effect.change, effect.identity.collection with
  | .deleteState, some collection => some (collection, effect.identity.key)
  | _, _ => none

def recordVersion (effect : Effect) : RecordVersion :=
  ⟨effect.identity.collection, effect.identity.key, effect.version⟩

end Effect

def CommitDelta.push (delta : CommitDelta) (effects : List Effect) : CommitDelta :=
  { delta with
    work := delta.work ++ effects.filterMap Effect.workRow?
    deletedWork := delta.deletedWork ++ effects.filterMap Effect.deletedWork?
    state := delta.state ++ effects.filterMap Effect.stateRow?
    deletedState := delta.deletedState ++ effects.filterMap Effect.deletedState?
    versions := delta.versions ++ effects.map Effect.recordVersion }

open CommitDelta

@[simp] theorem CommitDelta.push_nil (delta : CommitDelta) : delta.push [] = delta := by
  simp [push]

@[simp] theorem CommitDelta.push_push (delta : CommitDelta) (es fs : List Effect) :
    (delta.push es).push fs = delta.push (es ++ fs) := by
  simp [push]

/-- The delta of an accepted group, before its commands are resolved. -/
def effectsDelta (requestId : String) (effects : List Effect) (sequence : UInt64) :
    CommitDelta where
  work := effects.filterMap Effect.workRow?
  workFields := ∅
  workBodies := ∅
  deletedWork := effects.filterMap Effect.deletedWork?
  state := effects.filterMap Effect.stateRow?
  deletedState := effects.filterMap Effect.deletedState?
  versions := effects.map Effect.recordVersion
  nextSequence := sequence
  receipt := ⟨requestId, .committed (effects.map Effect.recordVersion)⟩

/-! ## One update -/

/-- The plan after an update: the delta has its effect, and no other record changed. -/
structure Writes (plan : Plan) (id : RecordIdentity) (outcome : Option Effect × UInt64)
    (plan' : Plan) : Prop where
  delta : plan'.delta = plan.delta.push outcome.1.toList
  sequence : plan'.snapshot.nextSequence = outcome.2
  others : ∀ other, other ≠ id → plan'.snapshot.cell other = plan.snapshot.cell other

def Plan.setVersion (plan : Plan) (id : RecordIdentity) (version : UInt64) : Plan :=
  { plan with snapshot := { plan.snapshot with
      versions := plan.snapshot.versions.insert id version } }

def Plan.setSequence (plan : Plan) (sequence : UInt64) : Plan :=
  { plan with snapshot := { plan.snapshot with nextSequence := sequence } }

theorem nextVersion_bind {β : Type} (plan : Plan) (id : RecordIdentity)
    (f : UInt64 × Plan → Except Rejection β) :
    (plan.nextVersion id >>= f) =
      takeVersion (plan.snapshot.cell id) >>= fun n => f (n, plan.setVersion id n) := by
  simp only [Plan.nextVersion, nextVersion, bind_assoc]
  rfl

theorem nextSequence_bind {β : Type} (plan : Plan) (f : UInt64 × Plan → Except Rejection β) :
    (plan.nextSequence >>= f) =
      takeSequence plan.snapshot.nextSequence >>= fun n => f (n, plan.setSequence n) := by
  simp only [Plan.nextSequence, bind_assoc]
  rfl

open RecordSnapshot Agree Effect Plan GroupUpdate

section Cells

variable (plan : Plan) (id other : RecordIdentity)

theorem cell_setVersion (version : UInt64) (different : other ≠ id) :
    (plan.setVersion id version).snapshot.cell other = plan.snapshot.cell other := by
  simp only [cell, setVersion]
  rw [get_insert_ne _ _ different.symm]

theorem cell_setSequence (sequence : UInt64) :
    (plan.setSequence sequence).snapshot.cell other = plan.snapshot.cell other :=
  rfl

theorem cell_putWork (key : String) (row : StoredWork) (version : UInt64)
    (different : other ≠ ⟨none, key⟩) :
    (plan.putWork key row version).snapshot.cell other = plan.snapshot.cell other := by
  simp only [cell, putWork]
  split
  · next work =>
    have elsewhere : key ≠ other.key := by
      rintro rfl
      exact different (by cases other; simp_all)
    rw [get_insert_ne _ _ elsewhere]
  · rfl

theorem cell_deleteWork (key : String) (version : UInt64) (different : other ≠ ⟨none, key⟩) :
    (plan.deleteWork key version).snapshot.cell other = plan.snapshot.cell other := by
  simp only [cell, deleteWork]
  split
  · next work =>
    have elsewhere : key ≠ other.key := by
      rintro rfl
      exact different (by cases other; simp_all)
    rw [get_erase_ne _ elsewhere]
  · rfl

theorem cell_putState (row : StateRecord) (different : other ≠ ⟨some row.collection, row.key⟩) :
    (plan.putState row).snapshot.cell other = plan.snapshot.cell other := by
  obtain ⟨collection, key⟩ := other
  cases collection with
  | none => rfl
  | some collection =>
    have elsewhere : (row.collection, row.key) ≠ (collection, key) := by
      intro same
      exact different (by cases same; rfl)
    simp only [cell, putState, Option.bind_some, get_insert_ne _ _ elsewhere]

theorem cell_deleteState (key : String × String) (version : UInt64)
    (different : other ≠ ⟨some key.1, key.2⟩) :
    (plan.deleteState key version).snapshot.cell other = plan.snapshot.cell other := by
  obtain ⟨collection, k⟩ := other
  cases collection with
  | none => rfl
  | some collection =>
    have elsewhere : key ≠ (collection, k) := by
      rintro rfl
      exact different rfl
    simp only [cell, deleteState, Option.bind_some, get_erase_ne _ elsewhere]

end Cells

section Steps

variable (plan : Plan)

/-- Appending one row to the delta is pushing one effect. -/
theorem writes_putWork (base : Plan) (key : String) (row : StoredWork) (version sequence : UInt64)
    (delta : base.delta = plan.delta) (next : base.snapshot.nextSequence = sequence)
    (others : ∀ other, other ≠ ⟨none, key⟩ → base.snapshot.cell other = plan.snapshot.cell other) :
    Writes plan ⟨none, key⟩ (some ⟨⟨none, key⟩, version, .putWork row⟩, sequence)
      (base.putWork key row version) where
  delta := by
    simp [putWork, push, delta, workRow?, deletedWork?, stateRow?, deletedState?, recordVersion]
  sequence := next
  others other different := by
    rw [cell_putWork base other key row version different, others other different]

theorem writes_deleteWork (base : Plan) (key : String) (version sequence : UInt64)
    (delta : base.delta = plan.delta) (next : base.snapshot.nextSequence = sequence)
    (others : ∀ other, other ≠ ⟨none, key⟩ → base.snapshot.cell other = plan.snapshot.cell other) :
    Writes plan ⟨none, key⟩ (some ⟨⟨none, key⟩, version, .deleteWork⟩, sequence)
      (base.deleteWork key version) where
  delta := by
    simp [deleteWork, push, delta, workRow?, deletedWork?, stateRow?, deletedState?, recordVersion]
  sequence := next
  others other different := by
    rw [cell_deleteWork base other key version different, others other different]

theorem writes_nothing (id : RecordIdentity) :
    Writes plan id (none, plan.snapshot.nextSequence) plan where
  delta := by simp
  sequence := rfl
  others _ _ := rfl

variable [Sha256] (now : Int64) (schema : QueueSchema)

theorem applyClaimed_writes (u : ClaimedUpdate) :
    Agree (Writes plan ⟨none, u.key⟩)
      ((claimed u).effect now schema (plan.snapshot.cell ⟨none, u.key⟩)
        plan.snapshot.nextSequence)
      (applyClaimed now schema plan u) := by
  apply map_left
  refine same_bind _ fun stored _ => ?_
  refine same_bind _ fun _ _ => ?_
  refine same_bind _ fun _ _ => ?_
  split
  · exact writes_nothing plan _
  · rw [nextVersion_bind]
    refine same_bind _ fun version _ => ?_
    refine same_bind _ fun disposed _ => ?_
    have others : ∀ other, other ≠ ⟨none, u.key⟩ →
        (plan.setVersion ⟨none, u.key⟩ version).snapshot.cell other = plan.snapshot.cell other :=
      fun other => cell_setVersion plan _ other version
    cases disposed with
    | none => exact writes_deleteWork plan _ u.key version _ rfl rfl others
    | some row => exact writes_putWork plan _ u.key row version _ rfl rfl others

theorem applyState_writes (u : StateUpdate) :
    Agree (Writes plan ⟨some u.collection, u.key⟩)
      ((state u).effect now schema (plan.snapshot.cell ⟨some u.collection, u.key⟩)
        plan.snapshot.nextSequence)
      (applyState plan u) := by
  apply map_left
  refine same_bind _ fun _ _ => ?_
  cases u.change with
  | check => exact writes_nothing plan _
  | put fields value =>
    simp only
    rw [nextVersion_bind]
    refine same_bind _ fun version _ => ?_
    refine ⟨?_, rfl, fun other different => ?_⟩
    · simp [putState, setVersion, push, workRow?,
        deletedWork?, stateRow?, deletedState?, recordVersion]
    · rw [cell_putState _ _ _ different, cell_setVersion _ _ _ _ different]
  | delete =>
    simp only
    rw [nextVersion_bind]
    refine same_bind _ fun version _ => ?_
    refine ⟨?_, rfl, fun other different => ?_⟩
    · simp [deleteState, setVersion, push, workRow?,
        deletedWork?, stateRow?, deletedState?, recordVersion]
    · rw [cell_deleteState _ _ _ _ different, cell_setVersion _ _ _ _ different]

theorem applyInsert_writes (w : NewWork) :
    Agree (Writes plan ⟨none, w.key⟩)
      ((insert w).effect now schema (plan.snapshot.cell ⟨none, w.key⟩)
        plan.snapshot.nextSequence)
      (applyInsert now plan w) := by
  apply map_left
  have present : plan.snapshot.work.contains w.key =
      (plan.snapshot.cell ⟨none, w.key⟩).work.isSome :=
    ExtTreeMap.contains_eq_isSome_getElem?
  rw [applyInsert, present]
  refine same_bind _ fun _ _ => ?_
  rw [nextVersion_bind]
  refine same_bind _ fun version _ => ?_
  dsimp only
  rw [nextSequence_bind]
  refine same_bind _ fun sequence _ => ?_
  refine writes_putWork plan _ w.key _ version sequence rfl rfl fun other different => ?_
  rw [cell_setSequence, cell_setVersion _ _ _ _ different]

theorem applyUnclaimed_writes (u : UnclaimedUpdate) :
    Agree (Writes plan ⟨none, u.key⟩)
      ((unclaimed u).effect now schema (plan.snapshot.cell ⟨none, u.key⟩)
        plan.snapshot.nextSequence)
      (applyUnclaimed now plan u) := by
  apply map_left
  refine same_bind _ fun stored _ => ?_
  refine same_bind _ fun _ _ => ?_
  have others : ∀ version other, other ≠ ⟨none, u.key⟩ →
      (plan.setVersion ⟨none, u.key⟩ version).snapshot.cell other = plan.snapshot.cell other :=
    fun version other => cell_setVersion plan _ other version
  cases u.change with
  | patch p =>
    refine same_bind _ fun _ _ => ?_
    rw [nextVersion_bind]
    refine same_bind _ fun version _ => ?_
    exact writes_putWork plan _ u.key _ version _ rfl rfl (others version)
  | administrative p lifecycle leaseGuard =>
    refine same_bind _ fun result _ => ?_
    obtain ⟨changed, stored'⟩ := result
    cases changed with
    | false => exact writes_putWork plan plan u.key _ _ _ rfl rfl fun _ _ => rfl
    | true =>
      simp only [administrativeVersion, keptVersion, if_true]
      rw [nextVersion_bind]
      refine same_bind _ fun version _ => ?_
      exact writes_putWork plan _ u.key _ version _ rfl rfl (others version)
  | replace w =>
    refine same_bind _ fun _ _ => ?_
    rw [nextVersion_bind]
    refine same_bind _ fun version _ => ?_
    cases stored.record.lifecycle with
    | pending =>
      refine same_bind _ fun _ _ => ?_
      rw [nextSequence_bind]
      refine same_bind _ fun sequence _ => ?_
      refine writes_putWork plan _ u.key _ version sequence rfl rfl fun other different => ?_
      rw [cell_setSequence, others version other different]
    | _ => exact rfl
  | delete =>
    refine same_bind _ fun _ _ => ?_
    rw [nextVersion_bind]
    refine same_bind _ fun version _ => ?_
    exact writes_deleteWork plan _ u.key version _ rfl rfl (others version)

/-- One update of the planner is its local effect. -/
theorem applyUpdate_writes (u : GroupUpdate) :
    Agree (Writes plan u.identity)
      (u.effect now schema (plan.snapshot.cell u.identity) plan.snapshot.nextSequence)
      (applyUpdate now schema plan u) := by
  cases u with
  | claimed u => exact applyClaimed_writes plan now schema u
  | state u => exact applyState_writes plan now schema u
  | unclaimed u => exact applyUnclaimed_writes plan now schema u
  | insert w => exact applyInsert_writes plan now schema w

/-- Updates of distinct records act independently: each sees its record of the snapshot. -/
theorem foldlM_applyUpdate (snapshot : RecordSnapshot) (us : List GroupUpdate)
    (distinct : (us.map GroupUpdate.identity).Nodup)
    (same : ∀ u ∈ us, plan.snapshot.cell u.identity = snapshot.cell u.identity) :
    Agree (fun outcome plan' => plan'.delta = plan.delta.push outcome.1 ∧
        plan'.snapshot.nextSequence = outcome.2)
      (planEffects now schema snapshot plan.snapshot.nextSequence us)
      (us.foldlM (applyUpdate now schema) plan) := by
  induction us generalizing plan with
  | nil => exact ⟨by simp, rfl⟩
  | cons u rest ih =>
    rw [map_cons, nodup_cons] at distinct
    have here := applyUpdate_writes plan now schema u
    rw [same u mem_cons_self] at here
    rw [foldlM_cons, planEffects]
    cases effect : u.effect now schema (snapshot.cell u.identity) plan.snapshot.nextSequence with
    | error reason =>
      rw [effect] at here
      cases applied : applyUpdate now schema plan u with
      | error reason' =>
        rw [applied] at here
        exact here
      | ok plan' =>
        rw [applied] at here
        exact here.elim
    | ok outcome =>
      rw [effect] at here
      cases applied : applyUpdate now schema plan u with
      | error reason' =>
        rw [applied] at here
        exact here.elim
      | ok plan' =>
        rw [applied] at here
        obtain ⟨delta, sequence, others⟩ := here
        have later := ih plan' distinct.2 fun v member => by
          rw [others v.identity, same v (mem_cons_of_mem u member)]
          exact fun clash => distinct.1 (clash ▸ mem_map_of_mem member)
        rw [sequence] at later
        simp only [ok_bind]
        generalize planEffects now schema snapshot outcome.2 rest = planned at later ⊢
        generalize foldlM (applyUpdate now schema) plan' rest = run at later ⊢
        cases planned <;> cases run <;> simp_all [Agree]

end Steps

/-! ## The addressed snapshot -/

/-- Every record of `part` is either the record of `whole` or absent. -/
def PartOf (part whole : RecordSnapshot) : Prop :=
  ∀ id, part.cell id = whole.cell id ∨ part.cell id = ⟨none, none, none⟩

section

variable {part whole : RecordSnapshot} (within : PartOf part whole)

include within

theorem PartOf.versions (id : RecordIdentity) :
    part.versions[id]? = whole.versions[id]? ∨ part.versions[id]? = none :=
  (within id).imp (congrArg Cell.highWater) (congrArg Cell.highWater)

theorem PartOf.work (key : String) : part.work[key]? = whole.work[key]? ∨ part.work[key]? = none :=
  (within ⟨none, key⟩).imp (congrArg Cell.work) (congrArg Cell.work)

theorem PartOf.state (key : String × String) :
    part.state[key]? = whole.state[key]? ∨ part.state[key]? = none :=
  (within ⟨some key.1, key.2⟩).imp (congrArg Cell.state) (congrArg Cell.state)

end

theorem cell_copyWork {source out : RecordSnapshot} (part : PartOf out source) (key : String)
    (id : RecordIdentity) :
    (copyWork source out key).cell id =
      if id = ⟨none, key⟩ then source.cell id else out.cell id := by
  split
  · next same =>
    subst same
    simp only [cell, copyWork, Option.isNone_none, if_true, Option.bind_none,
      get_copyEntry_self (part.work key), get_copyEntry_self (part.versions ⟨none, key⟩)]
  · next different =>
    obtain ⟨collection, k⟩ := id
    simp only [cell, copyWork, get_copyEntry_ne _ _ (Ne.symm different)]
    cases collection with
    | none =>
      have elsewhere : key ≠ k := fun same => different (by rw [same])
      simp only [Option.isNone_none, if_true, get_copyEntry_ne _ _ elsewhere]
    | some collection => rfl

theorem cell_copyState {source out : RecordSnapshot} (part : PartOf out source)
    (key : String × String) (id : RecordIdentity) :
    (copyState source out key).cell id =
      if id = ⟨some key.1, key.2⟩ then source.cell id else out.cell id := by
  split
  · next same =>
    subst same
    simp only [cell, copyState, Option.isNone_some, Option.bind_some,
      get_copyEntry_self (part.state key), get_copyEntry_self (part.versions ⟨some key.1, key.2⟩)]
    rfl
  · next different =>
    obtain ⟨collection, k⟩ := id
    simp only [cell, copyState, get_copyEntry_ne _ _ (Ne.symm different)]
    cases collection with
    | none => rfl
    | some collection =>
      have elsewhere : key ≠ (collection, k) := by
        rintro rfl
        exact different rfl
      simp only [Option.bind_some, get_copyEntry_ne _ _ elsewhere]

/-- Copying only turns absent records into records of the source. -/
theorem foldl_copy {κ : Type} {source : RecordSnapshot}
    {copy : RecordSnapshot → κ → RecordSnapshot} {idOf : κ → RecordIdentity}
    (law : ∀ out, PartOf out source → ∀ k id,
      (copy out k).cell id = if id = idOf k then source.cell id else out.cell id)
    (keeps : ∀ out k, (copy out k).nextSequence = out.nextSequence)
    (keys : List κ) (out : RecordSnapshot) (part : PartOf out source) :
    PartOf (keys.foldl copy out) source ∧ (keys.foldl copy out).nextSequence = out.nextSequence ∧
      ∀ id, (keys.foldl copy out).cell id =
        if id ∈ keys.map idOf then source.cell id else out.cell id := by
  induction keys generalizing out with
  | nil => exact ⟨part, rfl, by simp⟩
  | cons k keys ih =>
    have part' : PartOf (copy out k) source := by
      intro id
      rw [law out part k id]
      split
      · exact .inl rfl
      · exact part id
    obtain ⟨whole, sequence, cells⟩ := ih (copy out k) part'
    refine ⟨whole, sequence.trans (keeps out k), fun id => ?_⟩
    rw [foldl_cons, cells id, law out part k id]
    by_cases here : id = idOf k <;> by_cases later : id ∈ keys.map idOf <;>
      simp [here, later]

def addressedIdentities (group : CommitGroup) : List RecordIdentity :=
  (workKeys group).map (RecordIdentity.mk none) ++
    (stateKeys group).map fun key => ⟨some key.1, key.2⟩

/-- The addressed snapshot holds the addressed records and nothing else. -/
theorem addressedSnapshot_spec (group : CommitGroup) (source : RecordSnapshot) :
    (addressedSnapshot group source).nextSequence = source.nextSequence ∧
      ∀ id, (addressedSnapshot group source).cell id =
        if id ∈ addressedIdentities group then source.cell id else ⟨none, none, none⟩ := by
  have blank : ∀ id, ({ empty with
      nextSequence := source.nextSequence } : RecordSnapshot).cell id = ⟨none, none, none⟩ := by
    rintro ⟨collection, key⟩
    cases collection <;> simp [cell, empty]
  obtain ⟨partWork, sequenceWork, work⟩ := foldl_copy (fun _ => cell_copyWork) (fun _ _ => rfl)
    (ExtTreeSet.ofList (workKeys group) compare).toList _ fun id => .inr (blank id)
  obtain ⟨-, sequence, state⟩ := foldl_copy (fun _ => cell_copyState) (fun _ _ => rfl)
    (stateKeys group) _ partWork
  refine ⟨sequence.trans sequenceWork, fun id => ?_⟩
  have inWork : id ∈ (ExtTreeSet.ofList (workKeys group) compare).toList.map
      (RecordIdentity.mk none) ↔ id ∈ (workKeys group).map (RecordIdentity.mk none) := by
    simp
  rw [addressedSnapshot, state, work, blank, addressedIdentities]
  simp only [inWork, mem_append]
  split_ifs <;> tauto

/-! ## Groups -/

section Group

variable [Sha256] (now : Int64) (schema : QueueSchema)

theorem applyGroup_eq_foldlM (group : CommitGroup) (snapshot : RecordSnapshot) :
    applyGroup now schema group snapshot =
      ((updates group).foldlM (applyUpdate now schema)
        ⟨snapshot, .unchanged snapshot.nextSequence ⟨group.requestId, .committed []⟩⟩).map
        fun plan => ({ plan.delta with
          nextSequence := plan.snapshot.nextSequence
          receipt := ⟨group.requestId, .committed plan.delta.versions⟩ }, plan.snapshot) := by
  simp only [updates, foldlM_append, foldlM_map, applyUpdate, map_eq_bind, bind_assoc]
  rfl

omit [Sha256] in
theorem identity_mem_addressed {group : CommitGroup} {u : GroupUpdate}
    (member : u ∈ updates group) : u.identity ∈ addressedIdentities group := by
  simp only [updates, mem_append, mem_map] at member
  simp only [addressedIdentities, workKeys, stateKeys, mem_append, mem_map]
  rcases member with ((⟨u, member, rfl⟩ | ⟨u, member, rfl⟩) | ⟨u, member, rfl⟩) | ⟨w, member, rfl⟩
  · exact .inl ⟨u.key, .inl (.inl ⟨u, member, rfl⟩), rfl⟩
  · exact .inr ⟨(u.collection, u.key), ⟨u, member, rfl⟩, rfl⟩
  · exact .inl ⟨u.key, .inl (.inr ⟨u, member, rfl⟩), rfl⟩
  · exact .inl ⟨w.key, .inr ⟨w, member, rfl⟩, rfl⟩

omit [Sha256] in
theorem updates_nodup {group : CommitGroup} (distinct : group.addressed.Nodup) :
    ((updates group).map GroupUpdate.identity).Nodup := by
  have perm : ((updates group).map fun u => u.identity.pair).Perm group.addressed := by
    simp only [updates, List.map_append, List.map_map, CommitGroup.addressed, List.append_assoc]
    refine List.Perm.append_left _ ?_
    rw [← List.append_assoc (List.map _ group.workUpdates)]
    exact perm_append_comm
  exact List.Nodup.of_map RecordIdentity.pair (by
    rw [List.map_map]
    exact perm.nodup_iff.mpr distinct)

theorem applyGroup_effects (group : CommitGroup) (snapshot : RecordSnapshot)
    (distinct : group.addressed.Nodup) :
    (applyGroup now schema group (addressedSnapshot group snapshot)).map Prod.fst =
      (planEffects now schema snapshot snapshot.nextSequence (updates group)).map fun outcome =>
        effectsDelta group.requestId outcome.1 outcome.2 := by
  obtain ⟨sequence, cells⟩ := addressedSnapshot_spec group snapshot
  have agree := foldlM_applyUpdate
    ⟨addressedSnapshot group snapshot, .unchanged (addressedSnapshot group snapshot).nextSequence
      ⟨group.requestId, .committed []⟩⟩ now schema snapshot (updates group)
    (updates_nodup distinct) fun u member => by
      rw [cells, if_pos (identity_mem_addressed member)]
  rw [applyGroup_eq_foldlM, map_map]
  simp only [sequence] at agree ⊢
  refine agree.map_eq ?_
  rintro outcome plan ⟨delta, next⟩
  simp [delta, next, push, unchanged, effectsDelta]

end Group

end QueuePlanner
