import Fireweed.Projection.Residents

/-!
# What the pre-commit checks promise

The guard of every edit of an admitted script holds in the state in which the
edit is reached. The one gap is a queue that declares a document path under two
types: there an upsert can pass its check and still have no index keys when it is
applied. Where every path has one type, the keys a document has are those of its
native fields.
-/

namespace Projection

open List hiding map_map mem_iff_get
open BTree Checked Domain Engine Runs Scripts Std

variable {Priority Value Typed : Type}

/-! ## Documents and native fields -/

namespace Documents

variable (documents : Documents Value Typed) (entity : Value)

/-- What a document has under a declared path. -/
def read (declared : IndexField) : EngineResult (Option Typed) :=
  match documents.extractPath entity declared.field with
  | none => .ok none
  | some raw =>
    if documents.isNull raw then .ok none
    else (documents.jsonToTypedValue raw declared.indexType).map some

/-- No path is declared under two types. -/
def OneType (declared : List IndexField) : Prop :=
  ∀ a ∈ declared, ∀ b ∈ declared, a.field = b.field → a = b

variable {documents entity} {declared : IndexField} {out : IndexFields Typed}

/-- One step of the extraction: the path is there already, or it is read. -/
theorem extractField_eq :
    documents.extractField entity out declared =
      if out.contains declared.field then .ok out
      else (documents.read entity declared).map fun value =>
        match value with
        | some value => out.insert declared.field value
        | none => out := by
  rw [extractField, read]
  split
  · rfl
  · cases documents.extractPath entity declared.field with
    | none => rfl
    | some raw =>
      dsimp only
      split
      · rfl
      · rw [map_map]

/-- Every present path has the value of each of its declarations. -/
def Reads (documents : Documents Value Typed) (entity : Value) (fields : List IndexField)
    (out : IndexFields Typed) : Prop :=
  ∀ declared ∈ fields, ∀ value, out[declared.field]? = some value →
    documents.read entity declared = .ok (some value)

variable {fields : List IndexField} {out' : IndexFields Typed}

theorem Reads.extractField (oneType : OneType fields) (reads : documents.Reads entity fields out)
    (member : declared ∈ fields) (step : documents.extractField entity out declared = .ok out') :
    documents.Reads entity fields out' ∧ documents.read entity declared =
      .ok out'[declared.field]? ∧
      ∀ path : String, out[path]?.isSome = true → out'[path]?.isSome = true := by
  rw [extractField_eq] at step
  split at step
  · next present =>
    cases step
    rw [ExtTreeMap.contains_eq_isSome_getElem?, Option.isSome_iff_exists] at present
    obtain ⟨value, found⟩ := present
    exact ⟨reads, by rw [found]; exact reads declared member value found, fun _ here => here⟩
  · next absent =>
    obtain ⟨value, read, rfl⟩ := map_eq_ok.mp step
    have missing : out[declared.field]? = none := by simpa using absent
    cases value with
    | none => exact ⟨reads, by rw [read, missing], fun _ here => here⟩
    | some value =>
      refine ⟨?_, by rw [read, get_insert_self], ?_⟩
      · intro other among found here
        rw [get_insert] at here
        split at here
        · next same =>
          cases here
          rw [oneType other among declared member same.symm, read]
        · exact reads other among found here
      · intro path here
        rw [get_insert]
        split
        · rfl
        · exact here

/-- The extracted fields are what the document has under the declared paths. -/
theorem Reads.foldlM {rest : List IndexField} (oneType : OneType fields)
    (reads : documents.Reads entity fields out) (among : ∀ declared ∈ rest, declared ∈ fields)
    (extracted : rest.foldlM (documents.extractField entity) out = .ok out') :
    documents.Reads entity fields out' ∧
      (∀ path : String, out[path]?.isSome = true → out'[path]?.isSome = true) ∧
      ∀ declared ∈ rest, documents.read entity declared = .ok out'[declared.field]? := by
  induction rest generalizing out with
  | nil =>
    cases extracted
    exact ⟨reads, fun _ here => here, by simp⟩
  | cons first rest ih =>
    obtain ⟨middle, step, later⟩ := bind_eq_ok.mp (foldlM_cons.symm.trans extracted)
    obtain ⟨reads', read, keeps⟩ :=
      Reads.extractField oneType reads (among first mem_cons_self) step
    obtain ⟨final, keeps', others⟩ := ih reads'
      (fun declared member => among declared (mem_cons_of_mem _ member)) later
    refine ⟨final, fun path here => keeps' path (keeps path here), ?_⟩
    rintro declared (_ | ⟨_, member⟩)
    · cases found : out'[first.field]? with
      | some value => exact final first (among first mem_cons_self) value found
      | none =>
        cases earlier : middle[first.field]? with
        | none => rw [read, earlier]
        | some value =>
          have kept := keeps' first.field (by rw [earlier]; rfl)
          rw [found] at kept
          cases kept
    · exact others declared member

theorem extracted_eq_read (oneType : OneType fields)
    (extracted : fields.foldlM (documents.extractField entity) ∅ = .ok out) :
    ∀ declared ∈ fields, documents.read entity declared = .ok out[declared.field]? := by
  have start : documents.Reads entity fields ∅ := fun _ _ _ here => by simp at here
  exact (Reads.foldlM oneType start (fun _ member => member) extracted).2.2

/-- A document that can be read under every declared path can be extracted. -/
theorem extracted_of_read
    (readable : ∀ declared ∈ fields, ∃ value, documents.read entity declared = .ok value)
    (out : IndexFields Typed) :
    ∃ out', fields.foldlM (documents.extractField entity) out = .ok out' := by
  induction fields generalizing out with
  | nil => exact ⟨out, rfl⟩
  | cons first rest ih =>
    obtain ⟨value, read⟩ := readable first mem_cons_self
    have step : ∃ middle, documents.extractField entity out first = .ok middle := by
      rw [extractField_eq, read]
      split
      · exact ⟨_, rfl⟩
      · exact ⟨_, rfl⟩
    obtain ⟨middle, step⟩ := step
    rw [foldlM_cons, step]
    exact ih (fun declared member => readable declared (mem_cons_of_mem _ member)) middle

theorem frameFields_congr {left right : IndexFields Typed}
    (same : ∀ declared ∈ fields, left[declared.field]? = right[declared.field]?) :
    documents.frameFields left fields = documents.frameFields right fields := by
  induction fields with
  | nil => rfl
  | cons first rest ih =>
    rw [frameFields, frameFields, same first mem_cons_self,
      ih fun declared member => same declared (mem_cons_of_mem _ member)]

/-- Where every path has one type, a document has the keys of its native fields. -/
theorem entityIndexKeys_eq {indexes : List QueueIndex}
    (oneType : OneType (declaredIndexFieldPaths indexes))
    (extracted : documents.extractIndexFieldsFromEntity indexes entity = .ok out) :
    documents.entityIndexKeys indexes (some entity) = documents.typedIndexKeys indexes out := by
  have read := extracted_eq_read oneType extracted
  have each : ∀ index ∈ indexes, documents.entityIndexKey index (some entity) =
      documents.typedIndexKey index.declaration out := by
    intro index member
    have among : ∀ declared ∈ index.declaration.fields,
        declared ∈ declaredIndexFieldPaths indexes :=
      fun declared here => mem_flatMap.mpr ⟨index, member, here⟩
    have own : declaredIndexFieldPaths [index] = index.declaration.fields := by
      simp [declaredIndexFieldPaths]
    obtain ⟨fields, alone⟩ := extracted_of_read
      (fun declared here => ⟨_, read declared (among declared here)⟩)
      (∅ : IndexFields Typed)
    have alone' : documents.extractIndexFieldsFromEntity [index] entity = .ok fields := by
      rw [extractIndexFieldsFromEntity, own, alone]
    have readAlone := extracted_eq_read
      (fun a left b right => oneType a (among a left) b (among b right)) alone
    rw [entityIndexKey, alone']
    refine frameFields_congr fun declared here => ?_
    exact Except.ok.inj ((readAlone declared here).symm.trans (read declared (among declared here)))
  rw [entityIndexKeys, typedIndexKeys, mapM_congr fun index member => by rw [each index member]]

end Documents

/-- No document path is declared under two types by the typed indexes of the queue. -/
def QueueDefinition.OneTypePerPath (definition : QueueDefinition Priority Value Typed) : Prop :=
  Documents.OneType (Documents.declaredIndexFieldPaths definition.typedIndexes)

/-- The keys of a document, read directly or through its native fields. -/
theorem QueueDefinition.recordIndexKeys_entity {definition : QueueDefinition Priority Value Typed}
    (oneType : definition.OneTypePerPath) {entity : Value} {out : IndexFields Typed}
    (fields : BTreeMap String Bytes) (extracted : definition.documents.extractIndexFieldsFromEntity
      definition.typedIndexes entity = .ok out) :
    definition.recordIndexKeys fields ∅ (some entity) =
      definition.recordIndexKeys fields out (some entity) := by
  have empty : (∅ : IndexFields Typed).isEmpty = true := rfl
  rw [recordIndexKeys, recordIndexKeys, empty, Documents.entityIndexKeys_eq oneType extracted]
  by_cases native : out.isEmpty = true
  · rw [ExtTreeMap.isEmpty_iff.mp native]
    rfl
  · simp [native]

/-! ## Guards along admitted scripts -/

variable {items : List (PushItem Priority Value Typed)}
  {updates : List (UpdateFieldsCommand Priority Value)} {id : ItemId}

namespace ProjectionData

variable {definition : QueueDefinition Priority Value Typed} {stamp : Stamp}
  {data : ProjectionData Priority Value Typed}

/-- An upsert that passes its check has keys, and they are those that were checked. -/
theorem indexValidateWithEntity_keys (oneType : definition.OneTypePerPath)
    (fresh : data.items[id]? = none) {fields : BTreeMap String Bytes} {entity : Option Value}
    {exclude : Option ItemId}
    (checked : indexValidateWithEntity definition data id fields entity exclude = .ok ()) :
    ∃ keys, definition.recordIndexKeys fields ∅ entity = .ok keys ∧
      ∀ key ∈ keys, ∀ holder, uniqueHolder data key = some holder →
        holder = id ∨ some holder = exclude := by
  have checkedKeys : ∃ keys, definition.recordIndexKeys fields ∅ entity = .ok keys ∧
      (keys.any fun key => (uniqueHolder data key).any fun holder =>
        holder != id && some holder != exclude) = false := by
    cases entity with
    | none =>
      simp only [indexValidateWithEntity, fresh, Option.map_none, Option.getD_none,
        ok_bind] at checked
      obtain ⟨keys, computed, free⟩ := bind_eq_ok.mp checked
      exact ⟨keys, computed, rejectIf_eq_ok.mp free⟩
    | some document =>
      obtain ⟨native, extracted, checked⟩ := bind_eq_ok.mp checked
      obtain ⟨keys, computed, free⟩ := bind_eq_ok.mp checked
      rw [QueueDefinition.recordIndexKeys_entity oneType fields extracted]
      exact ⟨keys, computed, rejectIf_eq_ok.mp free⟩
  obtain ⟨keys, computed, free⟩ := checkedKeys
  refine ⟨keys, computed, fun key member holder held => ?_⟩
  have here := any_eq_false.mp free key member
  rw [held] at here
  by_contra other
  simp_all

theorem insertPending_frame (item : PushItem Priority Value Typed) {a : ItemId}
    (different : item.itemId ≠ a) :
    (data.insertPending definition stamp item).state.items[a]? = data.items[a]? := by
  simp only [insertPending]
  split
  · rfl
  · exact get_insert_ne _ _ different

/-- The items of a push come one after the other, each fresh and with keys. -/
theorem along_push (fresh : ∀ item ∈ items, data.items[item.itemId]? = none)
    (distinct : (items.map PushItem.itemId).Nodup)
    (keyed : ∀ item ∈ items, ∃ keys, definition.recordIndexKeys item.fields item.indexFields
      item.entityDocument = .ok keys) :
    Along (applyEdit definition stamp) (Guard definition) data (items.map .insertPending) := by
  induction items generalizing data with
  | nil => trivial
  | cons first rest ih =>
    rw [map_cons, nodup_cons] at distinct
    refine ⟨⟨fresh first mem_cons_self, keyed first mem_cons_self⟩, fun _ => ?_⟩
    refine ih ?_ distinct.2 fun item member => keyed item (mem_cons_of_mem _ member)
    intro item member
    have different : first.itemId ≠ item.itemId := fun same =>
      distinct.1 (same ▸ mem_map_of_mem member)
    exact (insertPending_frame first different).trans (fresh item (mem_cons_of_mem _ member))

theorem supersede_frame {clientItemKey : ClientItemKey} {a : ItemId} (different : id ≠ a) :
    (data.supersedeItem definition clientItemKey id).state.items[a]? = data.items[a]? := by
  rw [supersedeItem]
  split
  · rfl
  · split
    · rfl
    · exact get_insert_ne _ _ different

theorem applyUpdateFields_superseded (definition : QueueDefinition Priority Value Typed)
    (stamp : Stamp) (data : ProjectionData Priority Value Typed)
    (update : UpdateFieldsCommand Priority Value) (a : ItemId) :
    (data.applyUpdateFields definition stamp update).state.items[a]?.map ItemRecord.superseded =
      data.items[a]?.map ItemRecord.superseded := by
  simp only [applyUpdateFields]
  split
  · rfl
  · next record found =>
    split
    · rfl
    · dsimp only [updating]
      rw [get_insert]
      split
      · next same => rw [← same, found]; rfl
      · rfl

theorem along_updates
    (live : ∀ update ∈ updates, ∀ record, data.items[update.itemId]? = some record →
      record.superseded = false) :
    Along (applyEdit definition stamp) (Guard definition) data (updates.map .updateFields) := by
  induction updates generalizing data with
  | nil => trivial
  | cons first rest ih =>
    refine ⟨live first mem_cons_self, fun _ => ih ?_⟩
    intro update member record found
    have same := applyUpdateFields_superseded definition stamp data first update.itemId
    rw [show (data.applyUpdateFields definition stamp first).state.items[update.itemId]? =
      some record from found] at same
    obtain ⟨old, found', kept⟩ := Option.map_eq_some_iff.mp same.symm
    rw [← kept]
    exact live update (mem_cons_of_mem _ member) old found'

end ProjectionData

variable [DecidableEq Priority] [DecidableEq Value]
  {definition : QueueDefinition Priority Value Typed}
  {data : ProjectionData Priority Value Typed}

omit [DecidableEq Priority] [DecidableEq Value] in
theorem freshIds_iff :
    freshIds data items = true ↔
      (∀ item ∈ items, data.items[item.itemId]? = none) ∧ (items.map PushItem.itemId).Nodup := by
  rw [freshIds, Bool.and_eq_true, decide_eq_true_iff, all_eq_true]
  refine and_congr_left fun _ => forall₂_congr fun item _ => ?_
  rw [Bool.not_eq_true', ← not_mem_iff_get, ExtTreeMap.mem_iff_contains, Bool.not_eq_true]

omit [DecidableEq Priority] [DecidableEq Value] in
theorem indexValidatePush_keys (checked : indexValidatePush definition data items = .ok ()) :
    ∀ item ∈ items, ∃ keys, definition.recordIndexKeys item.fields item.indexFields
      item.entityDocument = .ok keys := by
  intro item member
  obtain ⟨_, loop, _⟩ := bind_eq_ok.mp checked
  obtain ⟨_, _, step⟩ := foldlM_each loop item member
  obtain ⟨keys, computed, _⟩ := bind_eq_ok.mp step
  exact ⟨keys, computed⟩

open ProjectionData

omit [DecidableEq Priority] [DecidableEq Value] in
theorem along_upsert (oneType : definition.OneTypePerPath) {item : PushItem Priority Value Typed}
    (fresh : data.items[item.itemId]? = none) {command : QueueCommand Priority Value Typed}
    (chosen : replaceIfPending definition data (upsertItem item) = .ok command) (stamp : Stamp) :
    Along (applyEdit definition stamp) (ProjectionData.Guard definition) data
      (data.edits command) := by
  rw [replaceIfPending] at chosen
  split at chosen
  · obtain ⟨checked, chosen⟩ := check_bind_eq_ok.mp chosen
    cases chosen
    obtain ⟨keys, computed, _⟩ := indexValidateWithEntity_keys oneType fresh checked
    exact ⟨⟨fresh, keys, computed⟩, fun _ => trivial⟩
  · next existing _ =>
    split at chosen
    · cases chosen
    · next state =>
      obtain ⟨checked, chosen⟩ := check_bind_eq_ok.mp chosen
      cases chosen
      obtain ⟨keys, computed, _⟩ :=
        indexValidateWithEntity_keys oneType fresh checked
      obtain ⟨record, found, pending⟩ := Option.map_eq_some_iff.mp state
      have different : existing ≠ item.itemId := by
        rintro rfl
        rw [fresh] at found
        cases found
      refine ⟨⟨record, found, pending⟩, fun _ => ⟨⟨?_, keys, computed⟩, fun _ => trivial⟩⟩
      exact (supersede_frame different).trans fresh
    · cases chosen
    · cases chosen
    · cases chosen

omit [DecidableEq Priority] [DecidableEq Value] in
theorem updateFieldsValidate_live {expectedItemVersion : Option UInt64}
    (checked : updateFieldsValidate data id expectedItemVersion = .ok ()) :
    ∀ record, data.items[id]? = some record → record.superseded = false := by
  intro record found
  rw [updateFieldsValidate, found] at checked
  by_contra superseded
  rw [Bool.not_eq_false] at superseded
  simp only [superseded, if_true] at checked
  split at checked
  · cases checked
  · split at checked <;> cases checked

omit [DecidableEq Priority] [DecidableEq Value] in
theorem foldl_preflightKey_refused {position n : Nat} {keys : List IndexKey} {state : Preflight}
    (member : n ∈ state.refused) : n ∈ (keys.foldl (preflightKey data position) state).refused := by
  induction keys generalizing state with
  | nil => exact member
  | cons key rest ih =>
    refine ih ?_
    rw [preflightKey]
    split
    · cases state.batch[key]? with
      | none => exact member
      | some previous => exact mem_cons_of_mem _ (mem_cons_of_mem _ member)
    · exact member

omit [DecidableEq Priority] [DecidableEq Value] in
/-- A preflight step forgets no refusal and refuses an item that is not pending and live. -/
theorem preflightEntry_refused {state state' : Preflight}
    {entry : UpdateFieldsCommand Priority Value × Nat}
    (step : preflightEntry definition data state entry = .ok state') :
    (∀ n ∈ state.refused, n ∈ state'.refused) ∧
      ∀ record, data.items[entry.1.itemId]? = some record →
        record.state ≠ .pending ∨ record.superseded = true → entry.2 ∈ state'.refused := by
  rw [preflightEntry] at step
  split at step
  · next missing =>
    cases step
    exact ⟨fun n member => mem_cons_of_mem _ member, fun record found => by simp_all⟩
  · next record found =>
    split at step
    · cases step
      exact ⟨fun n member => mem_cons_of_mem _ member, fun _ _ _ => mem_cons_self⟩
    · next good =>
      have kept : ∀ other, data.items[entry.1.itemId]? = some other →
          ¬(other.state ≠ .pending ∨ other.superseded = true) := by
        intro other found'
        rw [found] at found'
        cases found'
        tauto
      dsimp only at step
      split at step
      · cases step
        exact ⟨fun n member => mem_cons_of_mem _ member, fun _ _ _ => mem_cons_self⟩
      · cases step
      · obtain ⟨keys, _, step⟩ := bind_eq_ok.mp step
        cases step
        exact ⟨fun n => foldl_preflightKey_refused,
          fun other found' bad => absurd bad (kept other found')⟩

omit [DecidableEq Priority] [DecidableEq Value] in
/-- Every accepted entry of a batch names a pending live item. -/
theorem batchUpdatePreflight_live {accepted : List (UpdateFieldsCommand Priority Value)}
    (chosen : batchUpdatePreflight definition data updates = .ok accepted) :
    ∀ update ∈ accepted, ∀ record, data.items[update.itemId]? = some record →
      record.superseded = false := by
  obtain ⟨state, loop, chosen⟩ := bind_eq_ok.mp chosen
  cases chosen
  have refused := foldlM_invariant
    (P := fun seen state => ∀ entry ∈ seen, ∀ record, data.items[entry.1.itemId]? = some record →
      record.superseded = true → entry.2 ∈ state.refused) (by simp) ?_ loop
  · intro update member record found
    obtain ⟨entry, kept, rfl⟩ := mem_map.mp member
    obtain ⟨member, notRefused⟩ := mem_filter.mp kept
    by_contra superseded
    have here := refused entry member record found (by simpa using superseded)
    simp [here] at notRefused
  · intro seen entry state state' holds step other member record found superseded
    obtain ⟨grows, refuses⟩ := preflightEntry_refused step
    rcases mem_append.mp member with earlier | last
    · exact grows _ (holds other earlier record found superseded)
    · rw [mem_singleton.mp last] at found ⊢
      exact refuses record found (.inr superseded)

section

variable {request : ItemMutationRequest Priority Value}
  {plan : ItemMutationPlan Priority Value Typed}

/-- A plan is the one that was staged; validation adds nothing to it. -/
theorem planItemMutation_unvalidated (planned : planItemMutation definition data request = .ok plan)
    :
    planItemMutationUnvalidated definition data request = .ok plan := by
  obtain ⟨unvalidated, computed, planned⟩ := bind_eq_ok.mp planned
  split at planned
  · cases planned
    exact computed
  · split at planned
    · cases planned
    · cases planned
      exact computed

/-- A plan consists of the staged mutations of the operation. -/
theorem planItemMutationUnvalidated_items
    (planned : planItemMutationUnvalidated definition data request = .ok plan) :
    plan.items = (planOperation definition data request).filterMap Prod.snd ∧
      plan.gateChanges = request.gateChanges ∧
      ∃ batch, plan.items.foldlM (stageMutation definition data) ∅ = .ok batch := by
  obtain ⟨_, planned⟩ := check_bind_eq_ok.mp planned
  obtain ⟨_, planned⟩ := check_bind_eq_ok.mp planned
  obtain ⟨batch, staged, planned⟩ := bind_eq_ok.mp planned
  cases planned
  exact ⟨rfl, rfl, batch, staged⟩

theorem planItemMutation_keys (planned : planItemMutation definition data request = .ok plan) :
    ∀ mutation ∈ plan.items, ∀ values, mutation.replacementValues = some values →
      ∃ keys, definition.recordIndexKeys values.fields values.indexFields values.entityDocument =
        .ok keys := by
  intro mutation member values resolved
  obtain ⟨_, _, batch, staged⟩ :=
    planItemMutationUnvalidated_items (planItemMutation_unvalidated planned)
  obtain ⟨_, _, step⟩ := foldlM_each staged mutation member
  rw [stageMutation, resolved] at step
  obtain ⟨keys, computed, _⟩ := bind_eq_ok.mp step
  exact ⟨keys, computed⟩

end

omit [DecidableEq Priority] [DecidableEq Value] in
/-- A script of edits of one kind that has no guard. -/
theorem along_map {α : Type} {stamp : Stamp} {l : List α} {edit : α → Edit Priority Value Typed}
    (free : ∀ s a, ProjectionData.Guard definition s (edit a)) :
    Along (applyEdit definition stamp) (ProjectionData.Guard definition) data
      (l.map edit) := by
  refine Along.of_forall fun s a member => ?_
  obtain ⟨b, _, rfl⟩ := mem_map.mp member
  exact free s b

/-- The guard holds along every admitted script. -/
theorem admit_guard (oneType : definition.OneTypePerPath)
    {action : Action Priority Value Typed} {edits : List (Edit Priority Value Typed)}
    (admitted : admitAction definition data action = .ok edits) (stamp : Stamp) :
    Along (applyEdit definition stamp) (ProjectionData.Guard definition) data
      edits := by
  cases action with
  | push items =>
    obtain ⟨fresh, admitted⟩ := check_bind_eq_ok.mp admitted
    obtain ⟨checked, admitted⟩ := check_bind_eq_ok.mp admitted
    cases admitted
    obtain ⟨fresh, distinct⟩ := freshIds_iff.mp (by simpa using rejectIf_eq_ok.mp fresh)
    exact along_push fresh distinct (indexValidatePush_keys checked)
  | upsert item =>
    obtain ⟨fresh, admitted⟩ := check_bind_eq_ok.mp admitted
    obtain ⟨command, chosen, admitted⟩ := bind_eq_ok.mp admitted
    cases admitted
    obtain ⟨fresh, _⟩ := freshIds_iff.mp (by simpa using rejectIf_eq_ok.mp fresh)
    exact along_upsert oneType (fresh item (mem_singleton.mpr rfl)) chosen stamp
  | updateFields update expectedItemVersion =>
    obtain ⟨checked, admitted⟩ := check_bind_eq_ok.mp admitted
    obtain ⟨_, admitted⟩ := check_bind_eq_ok.mp admitted
    cases admitted
    exact ⟨updateFieldsValidate_live checked, fun _ => trivial⟩
  | batchUpdate updates =>
    obtain ⟨accepted, chosen, admitted⟩ := bind_eq_ok.mp admitted
    cases admitted
    exact along_updates (batchUpdatePreflight_live chosen)
  | mutateItems request =>
    obtain ⟨plan, planned, admitted⟩ := bind_eq_ok.mp admitted
    cases admitted
    refine Along.of_forall fun s edit member => ?_
    split at member
    · simp at member
    · rcases mem_append.mp member with item | gate
      · obtain ⟨mutation, among, rfl⟩ := mem_map.mp item
        exact planItemMutation_keys planned mutation among
      · obtain ⟨change, _, rfl⟩ := mem_map.mp gate
        trivial
  | renew ids expires | reassign ids token expires | finalize outcomes =>
    obtain ⟨_, admitted⟩ := check_bind_eq_ok.mp admitted
    cases admitted
    exact along_map fun _ _ => trivial
  | purge ids force =>
    obtain ⟨_, _, admitted⟩ := bind_eq_ok.mp admitted
    cases admitted
    exact along_map fun _ _ => trivial
  | claim ids token expires | cohortClaim ids token expires | expireLeases ids
      | expireCohort groupKey
  | fence ids | unfence ids | reap request =>
    cases admitted
    exact along_map fun _ _ => trivial
  | pause drainIntake | resume | setGates change =>
    cases admitted
    exact ⟨trivial, fun _ => trivial⟩

/-! ## Runs -/

/-- A step all of whose edits meet a condition when they are reached. -/
def GuardedStep (definition : QueueDefinition Priority Value Typed)
    (condition : ProjectionData Priority Value Typed → Edit Priority Value Typed → Prop)
    (data : ProjectionData Priority Value Typed) (action : Stamp × Action Priority Value Typed)
    (next : ProjectionData Priority Value Typed) : Prop :=
  Step definition data action next ∧ ∀ edits, admitAction definition data action.2 = .ok edits →
    Along (ProjectionData.applyEdit definition action.1) condition data edits

section

variable (oneType : definition.OneTypePerPath) {P : ProjectionData Priority Value Typed → Prop}
  (start : P (.new definition)) {actions : List (Stamp × Action Priority Value Typed)}

include oneType start

/-- What every effect keeps under a condition holds after every run that meets the condition. -/
theorem guardedRun_invariant
    {condition : ProjectionData Priority Value Typed → Edit Priority Value Typed → Prop}
    (keeps : ∀ stamp data edit next, data.Resident definition → P data → condition data edit →
      data.Guard definition edit → data.Effect definition stamp edit next → P next)
    (run : Run (GuardedStep definition condition) (.new definition) actions data) :
    data.Resident definition ∧ P data := by
  refine Run.invariant (P := fun data => data.Resident definition ∧ P data)
    ⟨resident_new definition, start⟩ ?_ run
  rintro data ⟨stamp, action⟩ _ ⟨resident, holds⟩ ⟨⟨edits, admitted, rfl⟩, met⟩
  refine run_invariant (P := fun data => data.Resident definition ∧ P data) ?_ ⟨resident, holds⟩
    ((admit_guard oneType admitted stamp).and (met edits admitted))
  rintro data edit ⟨resident, holds⟩ ⟨guard, condition⟩
  rcases applyEdit_effect resident stamp guard with same | effect
  · rw [same]
    exact ⟨resident, holds⟩
  · exact ⟨effect.resident resident, keeps stamp data edit _ resident holds condition guard effect⟩

/-- The same for all runs, where no condition is needed. -/
theorem reaches_invariant
    (keeps : ∀ stamp data edit next, data.Resident definition → P data →
      data.Guard definition edit → data.Effect definition stamp edit next → P next)
    (run : Reaches definition actions data) : data.Resident definition ∧ P data := by
  have guarded : Run (GuardedStep definition fun _ _ => True) (.new definition) actions data :=
    run.mono fun _ _ _ step => ⟨step, fun _ _ => Along.of_forall fun _ _ _ => trivial⟩
  exact guardedRun_invariant oneType start
    (fun stamp data edit next resident holds _ => keeps stamp data edit next resident holds) guarded

end

end Projection
