import Fireweed.Projection.Admission

/-!
# What an edit can do

One inversion for all edits. Under the invariant that every record has index keys
and that live records have theirs cached, an edit that meets its guard either
leaves the projection as it is or has exactly the effect listed here.
-/

namespace Projection

open BTree Checked Domain Scripts Std

variable {Priority Value Typed : Type}

/-- The index keys of a record; none if they cannot be computed. -/
def QueueDefinition.keysOf (definition : QueueDefinition Priority Value Typed)
    (record : ItemRecord Priority Value Typed) : List IndexKey :=
  (definition.recordEntityIndexKeys record).toOption.getD []

/-- The index keys of a record can be computed. -/
def QueueDefinition.Keyable (definition : QueueDefinition Priority Value Typed)
    (record : ItemRecord Priority Value Typed) : Prop :=
  definition.recordEntityIndexKeys record = .ok (definition.keysOf record)

variable {keys : List IndexKey}

namespace QueueDefinition

variable {definition : QueueDefinition Priority Value Typed}
  {record other : ItemRecord Priority Value Typed}

theorem keyable_of_eq_ok (computed : definition.recordEntityIndexKeys record = .ok keys) :
    definition.Keyable record ∧ keys = definition.keysOf record := by
  have same : definition.keysOf record = keys := by rw [keysOf, computed]; rfl
  exact ⟨by rw [Keyable, computed, same], same.symm⟩

theorem recordEntityIndexKeys_congr (fields : record.fields = other.fields)
    (indexFields : record.indexFields = other.indexFields)
    (entity : record.entityDocument = other.entityDocument) :
    definition.recordEntityIndexKeys record = definition.recordEntityIndexKeys other := by
  rw [recordEntityIndexKeys, recordEntityIndexKeys, fields, indexFields, entity]

end QueueDefinition

namespace ProjectionData

/-- Records stand under their own id, have index keys, and have them cached while they are live. -/
structure Resident (definition : QueueDefinition Priority Value Typed)
    (data : ProjectionData Priority Value Typed) : Prop where
  keyed : ∀ (id : ItemId) record, data.items[id]? = some record → record.itemId = id
  keyable : ∀ (id : ItemId) record, data.items[id]? = some record → definition.Keyable record
  cached : ∀ (id : ItemId) keys, data.framedIndexKeys[id]? = some keys →
    ∃ record, data.items[id]? = some record ∧ keys = definition.keysOf record
  live_cached : ∀ (id : ItemId) record, data.items[id]? = some record →
    record.superseded = false → data.framedIndexKeys[id]? = some (definition.keysOf record)

/-- What the checks promise of an edit when it is applied. -/
def Guard (definition : QueueDefinition Priority Value Typed)
    (data : ProjectionData Priority Value Typed) : Edit Priority Value Typed → Prop
  | .insertPending item => data.items[item.itemId]? = none ∧
    ∃ keys, definition.recordIndexKeys item.fields item.indexFields item.entityDocument = .ok keys
  | .updateFields update => ∀ record, data.items[update.itemId]? = some record →
    record.superseded = false
  | .mutate mutation => ∀ values, mutation.replacementValues = some values →
    ∃ keys, definition.recordIndexKeys values.fields values.indexFields values.entityDocument =
      .ok keys
  | .supersede _ id => ∃ record, data.items[id]? = some record ∧ record.state = .pending
  | _ => True

section After

variable (definition : QueueDefinition Priority Value Typed) (stamp : Stamp)
  (data : ProjectionData Priority Value Typed)

/-- The eligibility index after a record has been replaced by another one of the same item. -/
def rekeyed (index : EligibilityIndex) (old new : ItemRecord Priority Value Typed) :
    EligibilityIndex :=
  let cleared :=
    if isEligible data.blockedGates old then
      index.remove (EligibilityIndex.token definition.prioritySort old)
    else index
  if isEligible data.blockedGates new then
    cleared.insert definition.prioritySort new (data.items.insert new.itemId new)
  else cleared

def afterInsert (item : PushItem Priority Value Typed) : ProjectionData Priority Value Typed :=
  let record := data.pendingRecord stamp item
  data.entered definition record data.eligible (definition.keysOf record)

def afterTransition (id : ItemId) (record : ItemRecord Priority Value Typed) (state : ItemState) :
    ProjectionData Priority Value Typed :=
  { data with
    items := data.items.insert id (enterState record state stamp)
    leases :=
      if record.state = .leased ∧ state ≠ .leased then
        endLease data.leases id record.leaseExpiresAt record.leaseToken
      else data.leases
    eligible := data.rekeyed definition data.eligible record (enterState record state stamp)
    claimIndexes :=
      if record.state = .pending ∧ state ≠ .pending then
        data.claimIndexes.removeKeysFrom id (definition.keysOf record)
      else if record.state ≠ .pending ∧ state = .pending then
        data.claimIndexes.insertKeysInto id (definition.keysOf record)
      else data.claimIndexes
    metrics := data.metrics.transition record.state state }

/-- The projection after a field update of a live record, given the keys the update has read. -/
def afterUpdate (update : UpdateFieldsCommand Priority Value)
    (old new : ItemRecord Priority Value Typed) (oldKeys newKeys : List IndexKey) :
    ProjectionData Priority Value Typed :=
  let changes :=
    update.setPriority.isSet || update.setNotBefore.isSet || update.setGateKeys.isSome
  data.updating update.itemId old new oldKeys newKeys
    (if changes then data.rekeyed definition data.eligible old new else data.eligible)

def afterPurge (id : ItemId) (record : ItemRecord Priority Value Typed) :
    ProjectionData Priority Value Typed :=
  { { data with items := data.items.erase id }.withoutRecord definition id record with
    indexes := data.indexes.removeKeysFrom id (definition.keysOf record)
    claimIndexes := data.claimIndexes.removeKeysFrom id (definition.keysOf record) }

/-- The projection after resolved values have been written over a record. -/
def afterReplace (id : ItemId) (values : ResolvedItemValues Priority Value Typed)
    (old new : ItemRecord Priority Value Typed) : ProjectionData Priority Value Typed :=
  data.replacing id values old new (definition.keysOf old) (definition.keysOf new)
    (data.rekeyed definition data.eligible old new)

def afterSupersede (clientItemKey : ClientItemKey) (id : ItemId)
    (record : ItemRecord Priority Value Typed) : ProjectionData Priority Value Typed :=
  data.superseding definition clientItemKey id record (definition.keysOf record)

end After

/-- What an edit that changes anything does. -/
inductive Effect (definition : QueueDefinition Priority Value Typed) (stamp : Stamp)
    (data : ProjectionData Priority Value Typed) :
    Edit Priority Value Typed → ProjectionData Priority Value Typed → Prop
  | insert {item} (fresh : data.items[item.itemId]? = none)
      (keyable : definition.Keyable (data.pendingRecord stamp item)) :
      Effect definition stamp data (.insertPending item) (data.afterInsert definition stamp item)
  | claim {id token expires record} (found : data.items[id]? = some record)
      (live : record.superseded = false) (pending : record.state = .pending) :
      Effect definition stamp data (.claim id token expires)
        ((data.afterTransition definition ⟨none, none⟩ id record .leased).afterLease id
          (leasedRecord (enterState record .leased ⟨none, none⟩) token expires false)
          (((data.afterTransition definition ⟨none, none⟩ id record .leased).leases.grant id
            token).addOrdinaryLease expires id))
  | cohortClaim {id token expires record} (found : data.items[id]? = some record)
      (live : record.superseded = false) (pending : record.state = .pending) :
      Effect definition stamp data (.cohortClaim id token expires)
        ((data.afterTransition definition ⟨none, none⟩ id record .leased).afterLease id
          (leasedRecord (enterState record .leased ⟨none, none⟩) token expires true)
          ((data.afterTransition definition ⟨none, none⟩ id record .leased).leases.grant id token))
  | renew {id expires record} (found : data.items[id]? = some record) :
      Effect definition stamp data (.renew id expires)
        (data.afterLease id (renewedRecord record expires)
          (renewedLeases data.leases id record expires))
  | reassign {id token expires record} (found : data.items[id]? = some record) :
      Effect definition stamp data (.reassign id token expires)
        (data.afterLease id (reassignedRecord record token expires)
          (reassignedLeases data.leases id record token expires))
  | update {update record indexFields oldKeys newKeys}
      (found : data.items[update.itemId]? = some record) (live : record.superseded = false)
      (keyable : definition.Keyable (updatedRecord stamp update record indexFields))
      (keys : (oldKeys = definition.keysOf record ∧
          newKeys = definition.keysOf (updatedRecord stamp update record indexFields)) ∨
        (oldKeys = [] ∧ newKeys = [] ∧ definition.keysOf record =
          definition.keysOf (updatedRecord stamp update record indexFields))) :
      Effect definition stamp data (.updateFields update)
        (data.afterUpdate definition update record (updatedRecord stamp update record indexFields)
          oldKeys newKeys)
  | purge {id record} (found : data.items[id]? = some record) :
      Effect definition stamp data (.purge id) (data.afterPurge definition id record)
  | mutatePurge {id record} (found : data.items[id]? = some record) :
      Effect definition stamp data (.mutate ⟨id, .purge⟩) (data.afterPurge definition id record)
  | replace {mutation : ResolvedItemMutation Priority Value Typed} {values keepsPayload record}
      (found : data.items[mutation.itemId]? = some record)
      (resolved : mutation.replacementValues = some values)
      (keyable : definition.Keyable (mutatedRecord stamp keepsPayload record values)) :
      Effect definition stamp data (.mutate mutation)
        (data.afterReplace definition mutation.itemId values record
          (mutatedRecord stamp keepsPayload record values))
  | gates {change} :
      Effect definition stamp data (.changeGates change)
        (data.applyGateChange definition change).state
  | finalize {outcome record state} (found : data.items[outcome.itemId]? = some record)
      (live : record.superseded = false) (leased : record.state = .leased)
      (ended : state ≠ .leased) :
      Effect definition stamp data (.finalize outcome)
        ((data.afterTransition definition stamp outcome.itemId record state).afterFinalize
          definition outcome.itemId (enterState record state stamp)
          (finalizedRecord stamp outcome (enterState record state stamp)))
  | supersede {clientItemKey id record} (found : data.items[id]? = some record)
      (pending : record.state = .pending) :
      Effect definition stamp data (.supersede clientItemKey id)
        (data.afterSupersede definition clientItemKey id record)
  | expire {id record} (found : data.items[id]? = some record) (live : record.superseded = false)
      (leased : record.state = .leased) :
      Effect definition stamp data (.expireLease id)
        ((data.afterTransition definition ⟨none, none⟩ id record .pending).afterLease id
          (expiredRecord (enterState record .pending ⟨none, none⟩))
          (data.afterTransition definition ⟨none, none⟩ id record .pending).leases)
  | expireCohort {id record} (found : data.items[id]? = some record) :
      Effect definition stamp data (.expireCohortItem id)
        (data.afterCohortExpiry definition stamp id record)
  | fence {id fenced record} (found : data.items[id]? = some record) :
      Effect definition stamp data (.fence id fenced)
        (data.afterLease id { record with fenced := fenced } data.leases)
  | pause {drainIntake} :
      Effect definition stamp data (.pause drainIntake)
        { data with paused := true, pauseDrainIntake := drainIntake }
  | resume :
      Effect definition stamp data .resume { data with paused := false, pauseDrainIntake := false }

section Inversion

variable {definition : QueueDefinition Priority Value Typed} {stamp : Stamp}
  {data : ProjectionData Priority Value Typed} {id : ItemId}

theorem applyTransition_cases {state next : ItemState} {event : ItemEvent}
    (legal : applyTransition state event = some next) :
    (event = .claim ∧ state = .pending ∧ next = .leased) ∨
      (event ≠ .claim ∧ state = .leased ∧ next ≠ .leased ∧
        (event = .leaseExpired → next = .pending)) := by
  cases state <;> cases event <;> simp_all [applyTransition] <;> simp [← legal]

/-- A transition is refused without a trace, or it is made. -/
theorem transition_cases (resident : Resident definition data) (stamp : Stamp) (id : ItemId)
    (event : ItemEvent) :
    (∃ e, data.transition definition stamp id event = ⟨data, some e⟩) ∨
      ∃ record state, data.items[id]? = some record ∧ record.superseded = false ∧
        applyTransition record.state event = some state ∧
        data.transition definition stamp id event =
          ⟨data.afterTransition definition stamp id record state, none⟩ := by
  cases found : data.items[id]? with
  | none => exact .inl ⟨.notFound, by rw [transition, found]⟩
  | some record =>
    by_cases superseded : record.superseded = true
    · exact .inl ⟨.superseded, by simp [transition, found, superseded]⟩
    have live : record.superseded = false := by simpa using superseded
    cases legal : applyTransition record.state event with
    | none =>
      exact .inl ⟨.invalid "illegal lifecycle transition", by
        simp [transition, found, live, legal]⟩
    | some state =>
      refine .inr ⟨record, state, rfl, live, legal, ?_⟩
      have own := resident.keyed id record found
      have cached := resident.live_cached id record found live
      have before : isEligible data.blockedGates record = true ↔
          record.state = .pending ∧ gateKeysBlocked data.blockedGates record.gateKeys = false := by
        simp [isEligible, live]
      have after : isEligible data.blockedGates (enterState record state stamp) = true ↔
          state = .pending ∧ gateKeysBlocked data.blockedGates record.gateKeys = false := by
        simp [isEligible, enterState, live]
      simp only [transition, found, live, legal, afterTransition, rekeyed, before, after,
        show (enterState record state stamp).itemId = id from own, Bool.false_eq_true, if_false,
        framedKeysOrCompute, cached]
      by_cases leaves : record.state = .pending ∧ state ≠ .pending
      · simp [leaves]
      · by_cases returns : record.state ≠ .pending ∧ state = .pending
        · simp [returns]
        · rw [if_neg leaves, if_neg returns, if_neg leaves, if_neg returns]

variable {record : ItemRecord Priority Value Typed}

theorem withRecord_of_get (found : data.items[id]? = some record)
    (edit : ItemRecord Priority Value Typed → ProjectionData Priority Value Typed) :
    data.withRecord id edit = ⟨edit record, none⟩ := by
  rw [withRecord, found]

/-- A transition whose record is then rewritten. -/
theorem transition_withRecord_cases (resident : Resident definition data) (stamp : Stamp)
    (id : ItemId) (event : ItemEvent)
    (edit : ProjectionData Priority Value Typed → ItemRecord Priority Value Typed →
      ProjectionData Priority Value Typed) :
    ((data.transition definition stamp id event).andThen fun data =>
        data.withRecord id (edit data)).state = data ∨
      ∃ record state, data.items[id]? = some record ∧ record.superseded = false ∧
        applyTransition record.state event = some state ∧
        ((data.transition definition stamp id event).andThen fun data =>
          data.withRecord id (edit data)) =
          ⟨edit (data.afterTransition definition stamp id record state)
            (enterState record state stamp), none⟩ := by
  rcases transition_cases resident stamp id event with
    ⟨e, refused⟩ | ⟨record, state, found, live, legal, made⟩
  · rw [refused]
    exact .inl rfl
  · refine .inr ⟨record, state, found, live, legal, ?_⟩
    rw [made, Outcome.andThen_of_done rfl]
    exact withRecord_of_get (get_insert_self ..) _

/-- Entering a fresh item whose keys can be computed. -/
theorem insertPending_eq {item : PushItem Priority Value Typed}
    (fresh : data.items[item.itemId]? = none)
    (keyable : definition.Keyable (data.pendingRecord stamp item)) :
    data.insertPending definition stamp item = ⟨data.afterInsert definition stamp item, none⟩ := by
  have read : definition.recordEntityIndexKeys (data.pendingRecord stamp item) =
      .ok (definition.keysOf (data.pendingRecord stamp item)) := keyable
  simp only [insertPending, fresh, read]
  rfl

/-- A purge of a resident item always finds its keys. -/
theorem purgeItem_eq (resident : Resident definition data) (found : data.items[id]? = some record) :
    data.purgeItem definition id = ⟨data.afterPurge definition id record, none⟩ := by
  have own := resident.keyed id record found
  simp only [purgeItem, found, removeRecord, own]
  cases cached : data.framedIndexKeys[id]? with
  | none =>
    simp only [show definition.recordEntityIndexKeys record = .ok (definition.keysOf record) from
      resident.keyable id record found]
    rfl
  | some keys =>
    obtain ⟨other, found', rfl⟩ := resident.cached id keys cached
    rw [found] at found'
    cases found'
    rfl

open QueueDefinition

/-- Resolved values with keys are always written. -/
theorem replaceItem_cases (resident : Resident definition data) (stamp : Stamp) (id : ItemId)
    (keepsPayload : Bool) {values : ResolvedItemValues Priority Value Typed}
    (computed : definition.recordIndexKeys values.fields values.indexFields values.entityDocument =
      .ok keys) :
    (data.replaceItem definition stamp id keepsPayload values).state = data ∨
      ∃ record, data.items[id]? = some record ∧
        definition.Keyable (mutatedRecord stamp keepsPayload record values) ∧
        (data.replaceItem definition stamp id keepsPayload values).state =
          data.afterReplace definition id values record
            (mutatedRecord stamp keepsPayload record values) := by
  rw [replaceItem]
  cases found : data.items[id]? with
  | none => exact .inl rfl
  | some record =>
    have own := resident.keyed id record found
    obtain ⟨keyable, rfl⟩ := keyable_of_eq_ok
      ((definition.recordEntityIndexKeys_eq (mutatedRecord stamp keepsPayload record values)).trans
        computed)
    refine .inr ⟨record, rfl, keyable, ?_⟩
    have item : (mutatedRecord stamp keepsPayload record values).itemId = id := own
    simp only [show definition.recordEntityIndexKeys record = .ok (definition.keysOf record) from
      resident.keyable id record found, computed, afterReplace, rekeyed, item]

/-- Without changed inputs the index fields of a record are the same. -/
theorem updatedRecord_inputs {update : UpdateFieldsCommand Priority Value}
    (unchanged : indexInputsChanged update = false) (record : ItemRecord Priority Value Typed) :
    applyFieldOps (update.setFields.getD record.fields) update.fieldOps = record.fields ∧
      update.setEntityDocument.or record.entityDocument = record.entityDocument := by
  simp only [indexInputsChanged, Bool.or_eq_false_iff, Option.isSome_eq_false_iff,
    Option.isNone_iff_eq_none, Bool.not_eq_false'] at unchanged
  obtain ⟨⟨fields, ops⟩, document⟩ := unchanged
  have none : update.fieldOps.toList = [] := by rw [ExtTreeMap.isEmpty_iff.mp ops]; rfl
  exact ⟨by rw [applyFieldOps, none, fields]; rfl, by rw [document]; rfl⟩

section

variable {update : UpdateFieldsCommand Priority Value} {record : ItemRecord Priority Value Typed}
  {oldKeys newKeys : List IndexKey} {indexFields : IndexFields Typed}

/-- A field update reads keys of the old and the new record, or finds that they are the same. -/
theorem updateKeys_spec (stamp : Stamp) (keyable : definition.Keyable record)
    (read : updateKeys definition update record = .ok (oldKeys, indexFields, newKeys)) :
    definition.Keyable (updatedRecord stamp update record indexFields) ∧
      ((oldKeys = definition.keysOf record ∧
          newKeys = definition.keysOf (updatedRecord stamp update record indexFields)) ∨
        (oldKeys = [] ∧ newKeys = [] ∧ definition.keysOf record =
          definition.keysOf (updatedRecord stamp update record indexFields))) := by
  rw [updateKeys] at read
  obtain ⟨old, readOld, read⟩ := bind_eq_ok.mp read
  obtain ⟨native, readNative, read⟩ := bind_eq_ok.mp read
  obtain ⟨new, readNew, read⟩ := bind_eq_ok.mp read
  cases read
  dsimp only at readNew
  by_cases changed : indexInputsChanged update = true
  · rw [if_pos changed, keyable] at readOld
    rw [if_pos changed] at readNew
    cases readOld
    obtain ⟨keyable, rfl⟩ := keyable_of_eq_ok
      ((definition.recordEntityIndexKeys_eq (updatedRecord stamp update record _)).trans readNew)
    exact ⟨keyable, .inl ⟨rfl, rfl⟩⟩
  · rw [if_neg changed] at readOld readNew
    cases readOld
    cases readNew
    rw [Bool.not_eq_true] at changed
    obtain ⟨fields, document⟩ := updatedRecord_inputs changed record
    have native : indexFields = record.indexFields := by
      have none : update.setEntityDocument = none := by
        simp only [indexInputsChanged, Bool.or_eq_false_iff] at changed
        simpa using changed.2
      rw [none] at readNative
      cases readNative
      rfl
    have same : definition.recordEntityIndexKeys (updatedRecord stamp update record indexFields) =
        definition.recordEntityIndexKeys record :=
      recordEntityIndexKeys_congr fields native document
    obtain ⟨keyable, keys⟩ := keyable_of_eq_ok (same.trans keyable)
    exact ⟨keyable, .inr ⟨rfl, rfl, keys⟩⟩

/-- A field update of a live record; where nothing about its eligibility changes it keeps its key.
-/
theorem applyUpdateFields_eq (resident : Resident definition data)
    (found : data.items[update.itemId]? = some record) (live : record.superseded = false)
    (read : updateKeys definition update record = .ok (oldKeys, indexFields, newKeys)) :
    data.applyUpdateFields definition stamp update =
      ⟨data.afterUpdate definition update record (updatedRecord stamp update record indexFields)
        oldKeys newKeys, none⟩ := by
  have own := resident.keyed _ record found
  have item : (updatedRecord stamp update record indexFields).itemId = update.itemId := own
  have before : isEligible data.blockedGates record =
      (decide (record.state = .pending) &&
        !gateKeysBlocked data.blockedGates record.gateKeys) := by
    simp [isEligible, live]
  have after : isEligible data.blockedGates (updatedRecord stamp update record indexFields) =
      (decide (record.state = .pending) && !gateKeysBlocked data.blockedGates
        (updatedRecord stamp update record indexFields).gateKeys) := by
    simp [isEligible, updatedRecord, live]
  simp only [applyUpdateFields, found, read, afterUpdate, rekeyed, before, after, item]
  cases changes : update.setPriority.isSet || update.setNotBefore.isSet || update.setGateKeys.isSome
  · simp
  · simp

end

theorem finalizeEvent_ne_claim {outcome : FinalizeOutcome} {event : ItemEvent}
    (chosen : data.finalizeEvent definition outcome = .ok event) : event ≠ .claim := by
  rintro rfl
  revert chosen
  rw [finalizeEvent]
  split
  · simp
  · simp
  · split
    · simp
    · rw [failureEvent]
      split <;> simp
  · simp
  · split
    · split <;> simp
    · simp

/-- An edit that meets its guard changes nothing or has its effect. -/
theorem applyEdit_effect (resident : Resident definition data) (stamp : Stamp)
    {edit : Edit Priority Value Typed} (guard : Guard definition data edit) :
    (applyEdit definition stamp data edit).state = data ∨
      Effect definition stamp data edit (applyEdit definition stamp data edit).state := by
  cases edit with
  | insertPending item =>
    obtain ⟨fresh, keys, computed⟩ := guard
    have keyable := (keyable_of_eq_ok
      ((definition.recordEntityIndexKeys_eq (data.pendingRecord stamp item)).trans computed)).1
    rw [applyEdit, insertPending_eq fresh keyable]
    exact .inr (.insert fresh keyable)
  | claim id token expires =>
    rw [applyEdit, claimItem]
    rcases transition_withRecord_cases resident ⟨none, none⟩ id .claim _ with
      same | ⟨record, state, found, live, legal, made⟩
    · exact .inl same
    · rw [made]
      obtain ⟨_, pending, rfl⟩ | ⟨other, _⟩ := applyTransition_cases legal
      · exact .inr (.claim found live pending)
      · exact absurd rfl other
  | cohortClaim id token expires =>
    rw [applyEdit, cohortClaimItem]
    rcases transition_withRecord_cases resident ⟨none, none⟩ id .claim _ with
      same | ⟨record, state, found, live, legal, made⟩
    · exact .inl same
    · rw [made]
      obtain ⟨_, pending, rfl⟩ | ⟨other, _⟩ := applyTransition_cases legal
      · exact .inr (.cohortClaim found live pending)
      · exact absurd rfl other
  | renew id expires =>
    rw [applyEdit, renewLease]
    cases found : data.items[id]? with
    | none => exact .inl (by rw [withRecord, found])
    | some record =>
      rw [withRecord_of_get found]
      exact .inr (.renew found)
  | reassign id token expires =>
    rw [applyEdit, reassignLease]
    cases found : data.items[id]? with
    | none => exact .inl (by rw [withRecord, found])
    | some record =>
      rw [withRecord_of_get found]
      exact .inr (.reassign found)
  | updateFields update =>
    rw [applyEdit]
    cases found : data.items[update.itemId]? with
    | none => exact .inl (by rw [applyUpdateFields, found])
    | some record =>
      cases read : updateKeys definition update record with
      | error e => exact .inl (by simp only [applyUpdateFields, found, read])
      | ok keys =>
        obtain ⟨oldKeys, indexFields, newKeys⟩ := keys
        obtain ⟨keyable, keys⟩ := updateKeys_spec stamp (resident.keyable _ record found) read
        have live := guard record found
        rw [applyUpdateFields_eq resident found live read]
        exact .inr (.update found live keyable keys)
  | mutate mutation =>
    rw [applyEdit]
    obtain ⟨id, action⟩ := mutation
    cases action with
    | purge =>
      rw [mutateItem]
      cases found : data.items[id]? with
      | none => exact .inl (by simp only [purgeItem, found])
      | some record =>
        rw [purgeItem_eq resident found]
        exact .inr (.mutatePurge found)
    | replace values =>
      obtain ⟨keys, computed⟩ := guard values rfl
      rcases replaceItem_cases resident stamp id false computed with
        same | ⟨record, found, keyable, made⟩
      · exact .inl same
      · rw [mutateItem, made]
        exact .inr (.replace found rfl keyable)
    | replaceKeepingPayload values =>
      obtain ⟨keys, computed⟩ := guard values rfl
      rcases replaceItem_cases resident stamp id true computed with
        same | ⟨record, found, keyable, made⟩
      · exact .inl same
      · rw [mutateItem, made]
        exact .inr (.replace found rfl keyable)
  | changeGates change => exact .inr .gates
  | finalize outcome =>
    rw [applyEdit, finalizeItem]
    cases chosen : data.finalizeEvent definition outcome with
    | error e => exact .inl rfl
    | ok event =>
      rcases transition_withRecord_cases resident stamp outcome.itemId event _ with
        same | ⟨record, state, found, live, legal, made⟩
      · exact .inl same
      · dsimp only
        rw [made]
        obtain ⟨claimed, _⟩ | ⟨_, leased, ended, _⟩ := applyTransition_cases legal
        · exact absurd claimed (finalizeEvent_ne_claim chosen)
        · exact .inr (.finalize found live leased ended)
  | supersede clientItemKey id =>
    obtain ⟨record, found, pending⟩ := guard
    rw [applyEdit, supersedeItem]
    simp only [found, show definition.recordEntityIndexKeys record =
      .ok (definition.keysOf record) from resident.keyable id record found]
    exact .inr (.supersede found pending)
  | expireLease id =>
    rw [applyEdit, expireLease]
    rcases transition_withRecord_cases resident ⟨none, none⟩ id .leaseExpired _ with
      same | ⟨record, state, found, live, legal, made⟩
    · exact .inl same
    · rw [made]
      obtain ⟨claimed, _⟩ | ⟨_, leased, _, returned⟩ := applyTransition_cases legal
      · cases claimed
      · cases returned rfl
        exact .inr (.expire found live leased)
  | expireCohortItem id =>
    rw [applyEdit, expireCohortItem]
    cases found : data.items[id]? with
    | none => exact .inl rfl
    | some record => exact .inr (.expireCohort found)
  | fence id fenced =>
    rw [applyEdit, fenceItem]
    cases found : data.items[id]? with
    | none => exact .inl rfl
    | some record => exact .inr (.fence found)
  | pause drainIntake => exact .inr .pause
  | resume => exact .inr .resume
  | purge id =>
    rw [applyEdit]
    cases found : data.items[id]? with
    | none => exact .inl (by rw [purgeItem, found])
    | some record =>
      rw [purgeItem_eq resident found]
      exact .inr (.purge found)

end Inversion

end ProjectionData

end Projection
