import Fireweed.QueuePlanner.SelectivePlanning

/-!
# The selective plan of a group

Assembly of the refinement: the checks of the loaded image, the deltas of the
effects and their commands, and the plan of a whole group.
-/

namespace QueuePlanner

open BTree Checked List QueueContract QueueFields Std StoredWork GroupUpdate

theorem map_eq_of_forall₂ {α β : Type} {f : α → β} {l m : List α}
    (same : Forall₂ (fun a b => f b = f a) l m) : m.map f = l.map f := by
  induction same with
  | nil => rfl
  | cons head _ ih => rw [map_cons, map_cons, head, ih]

theorem filterMap_eq_of_forall₂ {α β : Type} {f : α → Option β} {l m : List α}
    (same : Forall₂ (fun a b => f b = f a) l m) : m.filterMap f = l.filterMap f := by
  induction same with
  | nil => rfl
  | cons head _ ih => rw [filterMap_cons, filterMap_cons, head, ih]

/-! ## The loaded image -/

variable {key : String} {delta' : CommitDelta}

section Image

variable {group : CommitGroup} {snapshot : RecordSnapshot} {schema : QueueSchema}
  {required : BTreeMap String (BTreeSet String)}

theorem work_select_some {row : StoredWork}
    (found : (snapshot.select required).work[key]? = some row) :
    ∃ old, snapshot.work[key]? = some old ∧ (row = old ∨ ∃ names, row = old.select names) := by
  simp only [RecordSnapshot.select, ExtTreeMap.getElem?_map, Option.map_eq_some_iff] at found
  obtain ⟨old, stored, rfl⟩ := found
  refine ⟨old, stored, ?_⟩
  split
  · exact .inr ⟨_, rfl⟩
  · exact .inl rfl

theorem WorkRowValid.select {old : StoredWork} (valid : WorkRowValid snapshot key old)
    (names : BTreeSet String) : WorkRowValid snapshot key (old.select names) :=
  ⟨⟨valid.coherent.expiry, valid.coherent.hash⟩, by simp [StoredWork.select,
    FieldCoverage.hasBlankPrefix], valid.keyed, valid.highWater, valid.positive, valid.inserted,
    valid.sequenced⟩

/-- The addressed part of the selected image is valid when that of the complete image is. -/
theorem snapshotValid_select (valid : SnapshotValid (addressedSnapshot group snapshot)) :
    SnapshotValid (addressedSnapshot group (snapshot.select required)) := by
  obtain ⟨sequence, cells⟩ := addressedSnapshot_spec group snapshot
  obtain ⟨sequence', cells'⟩ := addressedSnapshot_spec group (snapshot.select required)
  have versions : (addressedSnapshot group (snapshot.select required)).versions =
      (addressedSnapshot group snapshot).versions := by
    apply ExtTreeMap.ext_getElem?
    intro id
    have left := congrArg Cell.highWater (cells' id)
    have right := congrArg Cell.highWater (cells id)
    simp only [RecordSnapshot.cell] at left right
    rw [left, right]
    split <;> rfl
  constructor
  · intro key row found
    have here := congrArg Cell.work (cells' ⟨none, key⟩)
    have there := congrArg Cell.work (cells ⟨none, key⟩)
    by_cases addressed : (⟨none, key⟩ : RecordIdentity) ∈ addressedIdentities group
    · rw [if_pos addressed] at here there
      obtain ⟨old, stored, form⟩ := work_select_some (here.symm.trans found)
      have rowValid := valid.work key old (there.trans stored)
      have selected : WorkRowValid (addressedSnapshot group snapshot) key row := by
        rcases form with rfl | ⟨names, rfl⟩
        · exact rowValid
        · exact rowValid.select names
      exact ⟨selected.coherent, selected.covered, selected.keyed, versions ▸ selected.highWater,
        selected.positive, selected.inserted,
        sequence'.symm ▸ sequence ▸ selected.sequenced⟩
    · rw [if_neg addressed] at here
      rw [show (addressedSnapshot group (snapshot.select required)).work[key]? = none from here]
        at found
      cases found
  · intro id row found
    have here := congrArg Cell.state (cells' ⟨some id.1, id.2⟩)
    have there := congrArg Cell.state (cells ⟨some id.1, id.2⟩)
    by_cases addressed : (⟨some id.1, id.2⟩ : RecordIdentity) ∈ addressedIdentities group
    · rw [if_pos addressed] at here there
      have rowValid := valid.state id row (there.trans (here.symm.trans found))
      exact ⟨rowValid.keyed, versions ▸ rowValid.highWater, rowValid.positive⟩
    · rw [if_neg addressed] at here
      rw [show (addressedSnapshot group (snapshot.select required)).state[id]? = none from here]
        at found
      cases found

/-- Every patched name of an update is loaded in the selected image. -/
theorem checkPatch_select {names : BTreeSet String} {patch : WorkPatch}
    (loaded : required[key]? = some names) (patched : ∀ f, f ∈ patch.fields → f ∈ names) :
    checkPatch (addressedSnapshot group (snapshot.select required)) key patch = .ok () := by
  obtain ⟨-, cells⟩ := addressedSnapshot_spec group (snapshot.select required)
  have here := congrArg Cell.work (cells ⟨none, key⟩)
  rw [checkPatch]
  split
  · next row found =>
    have present : (snapshot.select required).work[key]? = some row := by
      by_cases addressed : (⟨none, key⟩ : RecordIdentity) ∈ addressedIdentities group
      · rw [if_pos addressed] at here
        exact here.symm.trans found
      · rw [if_neg addressed] at here
        exact absurd (here.symm.trans found) (by simp)
    rw [work_select loaded, Option.map_eq_some_iff] at present
    obtain ⟨old, -, rfl⟩ := present
    rw [view_select, ok_bind, forM_eq_ok]
    intro f member
    rw [get_selected (patched f (ExtTreeMap.mem_keys.mp member))]
    rfl
  · rfl

theorem addressed_bodyLoaded_select (key : String) :
    ((addressedSnapshot group (snapshot.select required)).work[key]?.any fun work =>
      !work.bodyLoaded) =
    (addressedSnapshot group snapshot).work[key]?.any fun work => !work.bodyLoaded := by
  obtain ⟨-, cells⟩ := addressedSnapshot_spec group snapshot
  obtain ⟨-, cells'⟩ := addressedSnapshot_spec group (snapshot.select required)
  have here := congrArg Cell.work (cells' ⟨none, key⟩)
  have there := congrArg Cell.work (cells ⟨none, key⟩)
  simp only [RecordSnapshot.cell, Option.isNone_none, if_true] at here there
  rw [here, there]
  split
  · simp only [RecordSnapshot.select, ExtTreeMap.getElem?_map]
    cases snapshot.work[key]? with
    | none => rfl
    | some old =>
      simp only [Option.map_some, Option.any_some]
      split <;> rfl
  · rfl

/-- The check of the loaded image accepts the selected image when it accepts the complete one. -/
theorem validateGroupSnapshot_select (ok : requiredWorkFieldsByKey group schema = .ok required)
    (valid : validateGroupSnapshot (addressedSnapshot group snapshot) group = .ok ()) :
    validateGroupSnapshot (addressedSnapshot group (snapshot.select required)) group = .ok () := by
  obtain ⟨image, rest⟩ := check_bind_eq_ok.mp valid
  obtain ⟨-, unclaimed⟩ := check_bind_eq_ok.mp rest
  have reads := fun {u} member work => requiredWorkFieldsByKey_reads (u := u) ok member work
  refine check_bind_eq_ok.mpr ⟨?_, check_bind_eq_ok.mpr ⟨?_, ?_⟩⟩
  · exact validateSnapshot_eq_ok.mpr (snapshotValid_select (validateSnapshot_eq_ok.mp image))
  · rw [forM_eq_ok]
    intro c member
    obtain ⟨names, loaded, covered⟩ := reads (u := .claimed c) (by simp [updates, member]) rfl
    exact checkPatch_select loaded (covered.patched c.patch rfl)
  · rw [forM_eq_ok] at unclaimed ⊢
    intro w member
    obtain ⟨names, loaded, covered⟩ := reads (u := .unclaimed w) (by simp [updates, member]) rfl
    have checked := unclaimed w member
    rw [checkUnclaimed] at checked ⊢
    cases change : w.change with
    | patch patch => exact checkPatch_select loaded (covered.patched patch (by
        simp [patch?, change]))
    | administrative patch lifecycle leaseGuard =>
      rw [change] at checked
      refine check_bind_eq_ok.mpr ⟨checkPatch_select loaded (covered.patched patch (by
        simp [patch?, change])), ?_⟩
      rw [addressed_bodyLoaded_select]
      exact (check_bind_eq_ok.mp checked).2
    | replace work => rfl
    | delete => rfl

end Image

/-! ## Deltas and commands -/

section Deltas

variable [Sha256] {group : CommitGroup} {snapshot : RecordSnapshot} {now : Int64}
  {schema : QueueSchema} {required : BTreeMap String (BTreeSet String)}

/-- A delta row and its counterpart, with the names loaded for it. -/
def RowsRelated (group : CommitGroup) (snapshot : RecordSnapshot) (schema : QueueSchema)
    (required : BTreeMap String (BTreeSet String)) (row row' : StoredWork) : Prop :=
  ∃ names, required[row.key]? = some names ∧
    SelectedRow group snapshot schema.work names row row'

theorem selectedEffect_rows {effects effects' : List Effect} (distinct : group.addressed.Nodup)
    (ok : requiredWorkFieldsByKey group schema = .ok required)
    (shaped : ∀ e ∈ effects, e.Shaped)
    (related : Forall₂ (SelectedEffect now schema snapshot required (updates group))
      effects effects') :
    Forall₂ (RowsRelated group snapshot schema required)
      (effects.filterMap Effect.workRow?) (effects'.filterMap Effect.workRow?) := by
  have both := (forall₂_and_left _ _).mpr ⟨shaped, related⟩
  refine rel_filterMap ?_ both
  rintro e e' ⟨shaped, related⟩
  cases written : e.workRow? with
  | none =>
    rw [related.same written, written]
    exact .none
  | some row =>
    obtain ⟨row', written', selected⟩ := related.row distinct shaped written
    rw [written']
    refine .some ?_
    obtain ⟨u, member, ⟨_, _, outcome⟩, -, -⟩ := related
    have id := (e.workRow?_eq_some shaped written).1
    rw [outcome.identity_eq] at id
    obtain ⟨names, loaded, -⟩ := requiredWorkFieldsByKey_reads ok member (by rw [id])
    rw [id] at loaded
    simp only [namesFor, loaded, Option.getD_some] at selected
    exact ⟨names, loaded, selected⟩

omit [Sha256] in
/-- The commands of a delta are resolved on the selected snapshot as on the complete one. -/
theorem resolveGroupWrites_select {base base' delta : CommitDelta}
    (complete : ∀ (key : String) (old : StoredWork), snapshot.work[key]? = some old →
      old.fieldCoverage = .complete)
    (regular : ∀ (key : String) (old : StoredWork), snapshot.work[key]? = some old →
      Fields.eq old.fields old.fields = true)
    (shaped : base.Shaped) (fields : base'.workFields = base.workFields)
    (bodies : base'.workBodies = base.workBodies)
    (rows : Forall₂ (RowsRelated group snapshot schema required) base.work base'.work)
    (ok : resolveGroupWrites group snapshot base schema = .ok delta) :
    resolveGroupWrites group (snapshot.select required) base' schema =
      .ok { base' with workFields := delta.workFields, workBodies := delta.workBodies } := by
  obtain ⟨resolved, valid⟩ := resolveGroupWrites_spec shaped ok
  obtain ⟨_, folded, ok⟩ := bind_eq_ok.mp ok
  cases (check_bind_eq_ok.mp ok).2
  obtain ⟨_, folded', rfl⟩ := foldlM_forall₂ (g := addCommands group (snapshot.select required)
      schema) (r := fun d d' => d' =
        { base' with workFields := d.workFields, workBodies := d.workBodies })
    rows (t := base') (by rw [← fields, ← bodies]) (by
      rintro row row' d d' next ⟨names, listed, related⟩ rfl step
      obtain ⟨⟨change, body⟩, here, step⟩ := bind_eq_ok.mp step
      cases step
      refine ⟨_, bind_eq_ok.mpr ⟨(change, body), ?_, rfl⟩, by rw [related.key]⟩
      rw [resolveRow_select complete regular listed related, here]) folded
  refine bind_eq_ok.mpr ⟨_, folded', check_bind_eq_ok.mpr ⟨?_, rfl⟩⟩
  have work : delta.work = base.work := by rw [resolved.same]
  have checked := validateResolvedWrites_eq_ok.mp valid
  have keys : base'.work.map key = delta.work.map key := by
    rw [work]
    exact map_eq_of_forall₂ (rows.imp fun _ _ ⟨_, _, related⟩ => related.key)
  refine validateResolvedWrites_eq_ok.mpr ⟨keys ▸ checked.distinct, keys ▸ checked.fields,
    keys ▸ checked.bodies, ?_⟩
  intro row' member
  obtain ⟨row, among, names, listed, related⟩ := forall₂_mem_right rows member
  obtain ⟨change, body, found, bodyFound, bodyShown, shown⟩ := checked.checked row (work ▸ among)
  obtain ⟨change', body', here, found', -⟩ := resolved.commands row among
  rw [found] at found'
  cases found'
  have command := related.command complete regular here
  rw [related.key]
  refine ⟨change, body, found, bodyFound, ?_, ?_⟩
  · cases related with
    | edited _ _ _ _ _ selected => rw [selected, validateBodyWrite_select, bodyShown]
    | whole same => rw [same, bodyShown]
  · rw [validateFieldWrite_select command, shown]

/-- A deleted record was addressed by an update that reads its unique tuples. -/
theorem Outcome.deletes_reads {cell : Cell} {sequence next : UInt64} {u : GroupUpdate}
    {effect : Effect} (outcome : Outcome now schema cell sequence u (some effect) next)
    (deleted : effect.deletedWork? = some key) :
    u.needsUnique = true ∧ u.identity = ⟨none, key⟩ := by
  cases outcome with
  | claimedDelete _ _ _ delete =>
    cases deleted
    exact ⟨by simp [needsUnique, delete], rfl⟩
  | deleted _ _ change =>
    cases deleted
    exact ⟨by simp [needsUnique, change], rfl⟩
  | _ => cases deleted

omit [Sha256] in
theorem workRow_eq_some {delta : CommitDelta} (shaped : delta.Shaped) {row : StoredWork}
    (listed : workRow delta key = some row) : row ∈ delta.work ∧ row.key = key := by
  by_cases member : key ∈ delta.work.map StoredWork.key
  · obtain ⟨other, among, rfl⟩ := mem_map.mp member
    rw [workRow_of_mem shaped among, Option.some.injEq] at listed
    subst listed
    exact ⟨among, rfl⟩
  · rw [workRow_of_not_mem member] at listed
    cases listed

/-- The delta on the selected snapshot: related rows, and everything else the same. -/
structure SelectedPlan (group : CommitGroup) (snapshot : RecordSnapshot) (schema : QueueSchema)
    (required : BTreeMap String (BTreeSet String)) (delta delta' : CommitDelta) : Prop where
  same : delta' = { delta with work := delta'.work }
  rows : List.Forall₂ (RowsRelated group snapshot schema required) delta.work delta'.work

variable (complete : ∀ (key : String) (old : StoredWork), snapshot.work[key]? = some old →
    old.fieldCoverage = .complete)
  (regular : ∀ (key : String) (old : StoredWork), snapshot.work[key]? = some old →
    Fields.eq old.fields old.fields = true)
  (ok : requiredWorkFieldsByKey group schema = .ok required)
  (distinct : group.addressed.Nodup)

include regular ok in
/-- The updates of a group have the same outcome on the selected snapshot. -/
theorem planEffects_group_select (sequence : UInt64) :
    Agree (fun result result' => result'.2 = result.2 ∧
        Forall₂ (SelectedEffect now schema snapshot required (updates group))
          result.1 result'.1)
      (planEffects now schema snapshot sequence (updates group))
      (planEffects now schema (snapshot.select required) sequence (updates group)) := by
  refine planEffects_select (Subset.refl _) ?_ ?_ regular sequence
  · intro u member work
    obtain ⟨names, found, -⟩ := requiredWorkFieldsByKey_reads ok member work
    rw [found]
    rfl
  · intro u member
    cases work : u.identity.collection with
    | none =>
      obtain ⟨names, found, reads⟩ := requiredWorkFieldsByKey_reads ok member work
      rw [namesFor, found]
      exact reads
    | some collection =>
      -- A state update patches no work row and reads no work tuple.
      cases u with
      | state u => exact ⟨by simp [patch?], by simp [patch?],
          by simp [needsUnique]⟩
      | _ => cases work

include complete regular ok distinct in
theorem Accepted.selectedDelta (accepted : Accepted group snapshot now schema)
    (plan : SelectedPlan group snapshot schema required accepted.delta delta') :
    SelectedDelta snapshot schema.work required accepted.delta delta' := by
  have shaped := accepted.shaped distinct
  obtain ⟨resolved, -⟩ := accepted.resolved_spec distinct
  have keys : delta'.work.map key = accepted.delta.work.map key :=
    map_eq_of_forall₂ (plan.rows.imp fun _ _ ⟨_, _, related⟩ => related.key)
  have nodup : ((delta'.work.map fun row => (row.key, row)).map Prod.fst).Nodup := by
    rw [List.map_map]
    exact keys ▸ shaped.work
  refine ⟨by rw [plan.same], by rw [plan.same], by rw [plan.same], ?_, ?_, ?_⟩
  · intro key row listed
    obtain ⟨member, rfl⟩ := workRow_eq_some shaped listed
    obtain ⟨row', member', names, loaded, related⟩ := forall₂_mem_left plan.rows member
    refine ⟨rfl, row', names, ?_, loaded, ?_⟩
    · rw [← related.key]
      exact get_ofList_of_mem nodup (mem_map.mpr ⟨row', member', rfl⟩)
    · intro change found
      have among : row ∈ (effectsDelta group.requestId accepted.effects accepted.sequence).work :=
        by
        rw [accepted.delta_eq distinct] at member
        exact member
      obtain ⟨change', body, here, found', -⟩ := resolved.commands row among
      rw [found] at found'
      cases found'
      exact related.command complete regular here
  · intro key missing
    refine workRow_of_not_mem fun listed => ?_
    rw [keys] at listed
    obtain ⟨row, member, rfl⟩ := mem_map.mp listed
    rw [workRow_of_mem shaped member] at missing
    cases missing
  · intro key deleted
    rw [accepted.delta_eq distinct] at deleted
    obtain ⟨effect, member, deletes⟩ := mem_filterMap.mp deleted
    obtain ⟨u, among, _, _, outcome, -⟩ := accepted.effect_source member
    obtain ⟨needs, id⟩ := outcome.deletes_reads deletes
    obtain ⟨names, loaded, reads⟩ := requiredWorkFieldsByKey_reads ok among (by rw [id])
    rw [id] at loaded
    exact ⟨names, loaded, reads.unique needs⟩

include complete regular ok distinct in
/-- A group accepted on the complete rows is accepted on the selected rows, with the same ownership
effects. -/
theorem Accepted.select (accepted : Accepted group snapshot now schema) :
    ∃ accepted' : Accepted group (snapshot.select required) now schema,
      accepted'.unique = accepted.unique ∧
      SelectedPlan group snapshot schema required accepted.delta accepted'.delta := by
  have agree := @planEffects_group_select _ group snapshot now schema required regular ok
    snapshot.nextSequence
  rw [accepted.planned] at agree
  cases planned : planEffects now schema (snapshot.select required) snapshot.nextSequence
      (updates group) with
  | error e =>
    rw [planned] at agree
    exact agree.elim
  | ok result =>
    obtain ⟨effects', sequence⟩ := result
    rw [planned] at agree
    obtain ⟨rfl, related⟩ := agree
    have parts := related.imp fun _ _ r => r.identity
    have versions := map_eq_of_forall₂ (parts.imp fun _ _ r => r.2.1)
    have rows := selectedEffect_rows distinct ok accepted.effect_shaped related
    have resolved := @resolveGroupWrites_select group snapshot schema required
      (effectsDelta group.requestId accepted.effects accepted.sequence)
      (effectsDelta group.requestId effects' accepted.sequence) _ complete regular
      (effectsDelta_shaped (accepted.effects_nodup distinct) accepted.effect_shaped _ _)
      rfl rfl rows accepted.resolved
    obtain ⟨delta', final⟩ : ∃ delta', delta' = { effectsDelta group.requestId effects'
        accepted.sequence with
      workFields := accepted.delta.workFields, workBodies := accepted.delta.workBodies } := ⟨_, rfl⟩
    rw [← final] at resolved
    have plan : SelectedPlan group snapshot schema required accepted.delta delta' := by
      rw [accepted.delta_eq distinct, final]
      refine ⟨?_, rows⟩
      simp only [effectsDelta, versions, filterMap_eq_of_forall₂ (parts.imp fun _ _ r => r.2.2.1),
        filterMap_eq_of_forall₂ (parts.imp fun _ _ r => r.2.2.2.1),
        filterMap_eq_of_forall₂ (parts.imp fun _ _ r => r.2.2.2.2)]
    obtain ⟨_, -, checked⟩ := bind_eq_ok.mp resolved
    obtain ⟨valid, same⟩ := check_bind_eq_ok.mp checked
    cases same
    have owned := uniqueEffects_select complete regular
      (accepted.selectedDelta complete regular ok distinct plan) (accepted.shaped distinct)
      (by rw [plan.same]) valid accepted.owned
    exact ⟨⟨effects', accepted.sequence, delta', accepted.unique,
      validateGroupSnapshot_select ok accepted.validated, planned, resolved, owned⟩, rfl, plan⟩

end Deltas

/-! ## Refinement -/

/-- The delta planned on selected rows, next to the delta and the image planned on the complete
rows: everything but the fields shown by the rows is the same, and its commands turn the complete
rows into the rows of that image. -/
structure RefinesPlan (snapshot : RecordSnapshot) (delta : CommitDelta) (after : RecordSnapshot)
    (delta' : CommitDelta) : Prop where
  same : delta' = { delta with work := delta'.work }
  metadata : delta'.work.map (StoredWork.select · ∅) = delta.work.map (StoredWork.select · ∅)
  rows : ∀ row ∈ delta'.work, ∃ change body, delta'.workFields[row.key]? = some change ∧
    delta'.workBodies[row.key]? = some body ∧
    after.work[row.key]? = some (mergeRow snapshot.work[row.key]? row change body)

/-- A plan on selected rows fails only if the plan on the complete rows does, and otherwise
refines it. -/
def PlanRefines (snapshot : RecordSnapshot) (plan plan' :
    QueueResult CommitDelta × RecordSnapshot) :
    Prop :=
  ∀ delta after, plan = (.ok delta, after) →
    ∃ delta' after', plan' = (.ok delta', after') ∧ RefinesPlan snapshot delta after delta'

theorem select_select (row : StoredWork) (names : BTreeSet String) :
    (row.select names).select ∅ = row.select ∅ := by
  have fields : (row.select names).fields.filter (fun name _ =>
    (∅ : BTreeSet String).contains name) =
      row.fields.filter fun name _ => (∅ : BTreeSet String).contains name := by
    apply ExtTreeMap.ext_getElem?
    intro field
    simp
  simp only [StoredWork.select, StoredWork.fields] at fields ⊢
  rw [fields]

/-- Merging reads only the metadata of a row whose record exists. -/
theorem mergeRow_select (old row : StoredWork) (names : BTreeSet String) (change : ResolvedFields)
    (body : ResolvedBody) :
    mergeRow (some old) (row.select names) change body = mergeRow (some old) row change body := rfl

section Refinement

variable [Sha256] {group : CommitGroup} {snapshot : RecordSnapshot} {now : Int64}
  {schema : QueueSchema} {required : BTreeMap String (BTreeSet String)}

theorem SelectedPlan.refines {commit : Commit group snapshot now schema}
    (distinct : group.addressed.Nodup)
    (plan : SelectedPlan group snapshot schema required commit.delta delta') :
    RefinesPlan snapshot commit.delta commit.after delta' := by
  refine ⟨plan.same, map_eq_of_forall₂ (plan.rows.imp ?_), ?_⟩
  · rintro row row' ⟨names, -, related⟩
    cases related with
    | edited _ _ _ _ _ selected => rw [selected, select_select]
    | whole same => rw [same]
  · intro row' member
    obtain ⟨row, among, names, -, related⟩ := forall₂_mem_right plan.rows member
    obtain ⟨change, body, command, stored⟩ := commit.after_work_put distinct among
    refine ⟨change, body, ?_, ?_, ?_⟩
    · rw [plan.same, related.key]
      exact command.fields
    · rw [plan.same, related.key]
      exact command.bodies
    · rw [related.key, stored]
      cases related with
      | edited found _ _ _ _ selected => rw [selected, found, mergeRow_select]
      | whole same => rw [same]

/-- Planning a validated group on rows of which only its read closure is loaded refines planning it
on the complete rows. -/
theorem planCommitGroup_select {admission : QueueSchema} {limits : QueueLimits}
    {queue : QueueAddress} {groups : List CommitGroup}
    (validated : validateCommitGroups admission limits queue groups = .ok ())
    (member : group ∈ groups)
    (complete : ∀ (key : String) (row : StoredWork), snapshot.work[key]? = some row →
      row.fieldCoverage = .complete)
    (regular : ∀ (key : String) (row : StoredWork), snapshot.work[key]? = some row →
      Fields.eq row.fields row.fields = true)
    (closure : requiredWorkFieldsByKey group schema = .ok required) :
    PlanRefines snapshot (planCommitGroup group snapshot now schema)
      (planCommitGroup group (snapshot.select required) now schema) := by
  intro delta after planned
  have distinct := ((validateCommitGroups_admitted validated).2 group member).distinct
  rcases planCommitGroup_cases group snapshot now schema distinct with
    ⟨e, failed⟩ | ⟨reason, refused, rejected⟩ | ⟨commit, committed⟩
  · rw [failed] at planned
    cases planned
  · have refused' : Refused group (snapshot.select required) now schema reason := by
      rcases refused with ⟨valid, planned⟩ | ⟨accepted, conflict⟩
      · refine .inl ⟨validateGroupSnapshot_select closure valid, ?_⟩
        have agree := @planEffects_group_select _ group snapshot now schema required regular
          closure snapshot.nextSequence
        rw [planned] at agree
        cases planned' : planEffects now schema (snapshot.select required) snapshot.nextSequence
            (updates group) with
        | error e =>
          rw [planned'] at agree
          exact planned'.trans (congrArg Except.error (Eq.symm agree))
        | ok result =>
          rw [planned'] at agree
          exact agree.elim
      · obtain ⟨accepted', same, -⟩ := accepted.select complete regular closure distinct
        exact .inr ⟨accepted', by rw [same]; exact conflict⟩
    rw [rejected] at planned
    cases planned
    exact ⟨_, _, refused'.planCommitGroup distinct, rfl, rfl, by simp [rejectedDelta,
      CommitDelta.unchanged]⟩
  · obtain ⟨accepted', same, plan⟩ := commit.toAccepted.select complete regular closure distinct
    obtain ⟨commit', -, committed'⟩ := accepted'.planCommitGroup_committed distinct
      (by rw [same]; exact commit.admissible)
    rw [committed] at planned
    cases planned
    exact ⟨_, _, committed', plan.refines distinct⟩

end Refinement

/-- The sample row with both fields, completely loaded. -/
def completeSnapshot : RecordSnapshot :=
  sampleSnapshot (sampleRow (.ofList [("a", .integer 1), ("z", .float ⟨0⟩)] compare) .complete)

/-- A patch of one field is planned without the other. -/
theorem planCommitGroup_select_patch :
    PlanRefines completeSnapshot
      (@planCommitGroup sampleSha256 (samplePatch (.ofList [("z", none)] compare))
        completeSnapshot 0 sampleSchema)
      (@planCommitGroup sampleSha256 (samplePatch (.ofList [("z", none)] compare))
        (completeSnapshot.select (.ofList [("k", .ofList ["z"] compare)] compare)) 0
        sampleSchema) := by
  have each : ∀ entry ∈ completeSnapshot.work.toList, entry.2.fieldCoverage = .complete ∧
      Fields.eq entry.2.fields entry.2.fields = true := by
    decide +kernel
  have stored : ∀ (key : String) (row : StoredWork), completeSnapshot.work[key]? = some row →
      row.fieldCoverage = .complete ∧ Fields.eq row.fields row.fields = true :=
    fun key row found => each (key, row) ((mem_toList_iff _ key row).mpr found)
  apply @planCommitGroup_select sampleSha256 (samplePatch (.ofList [("z", none)] compare))
    completeSnapshot 0 sampleSchema (.ofList [("k", .ofList ["z"] compare)] compare) sampleSchema
    .default sampleQueue [samplePatch (.ofList [("z", none)] compare)]
  · decide +kernel
  · exact mem_singleton_self _
  · exact fun key row found => (stored key row found).1
  · exact fun key row found => (stored key row found).2
  · decide +kernel

/-- A completely loaded row at the last version, with a field that is not a number. -/
def unorderedSnapshot : RecordSnapshot where
  work := .ofList [("k", {
    record := ⟨⟨"k", 0, 0, .ofList [("z", .float ⟨0x7ff8000000000000⟩)] compare, []⟩,
      0xffffffffffffffff, 1, .pending, 0, 0, none⟩
    leaseHash := none
    fieldCoverage := .complete
    bodyLoaded := true })] compare
  state := ∅
  versions := .ofList [(⟨none, "k"⟩, 0xffffffffffffffff)] compare
  nextSequence := 1
  uniqueProbesLoaded := ∅
  uniqueOwners := ∅

/-- An administrative change that patches nothing. -/
def touchGroup : CommitGroup :=
  ⟨"r", [], [], [], [⟨"k", .version 0xffffffffffffffff,
    .administrative .empty .keep .rejectActive⟩], none⟩

/-- The rejection or the versions of a plan that succeeded. -/
def plannedOutcome (plan : QueueResult CommitDelta × RecordSnapshot) :
    Option (Except Rejection (List RecordVersion)) :=
  match plan with
  | (.ok delta, _) =>
    match delta.receipt.outcome with
    | .rejected reason => some (.error reason)
    | .committed versions => some (.ok versions)
    | _ => none
  | _ => none

/-- A row that is not equal to itself is changed by an update of nothing, which its selection is
not: the complete plan is rejected for want of a version, the selective plan commits. -/
theorem selective_outcome_differs :
    validateCommitGroups sampleSchema .default sampleQueue [touchGroup] = .ok () ∧
    validateSnapshot unorderedSnapshot = .ok () ∧
    requiredWorkFieldsByKey touchGroup sampleSchema = .ok (.ofList [("k", ∅)] compare) ∧
    plannedOutcome (@planCommitGroup sampleSha256 touchGroup unorderedSnapshot 0 sampleSchema) =
      some (.error (.invalid "record version exhausted")) ∧
    plannedOutcome (@planCommitGroup sampleSha256 touchGroup
        (unorderedSnapshot.select (.ofList [("k", ∅)] compare)) 0 sampleSchema) =
      some (.ok [⟨none, "k", 0xffffffffffffffff⟩]) := by
  decide +kernel

end QueuePlanner
