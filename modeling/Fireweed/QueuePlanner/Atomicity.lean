import Fireweed.QueuePlanner.Commit
import Fireweed.QueueFields.Resolution

/-!
# Atomicity

A group that is not committed leaves no trace. A committed group changes exactly
the records its receipt lists, in the order of the group, and leaves each of them
as the delta says.
-/

namespace QueuePlanner

open BTree Checked List QueueContract QueueFields Std

/-- No patch of the group turns a stored zero into the zero of the other sign. -/
def KeepsSigns (group : CommitGroup) (before : RecordSnapshot) : Prop :=
  ∀ u ∈ updates group, ∀ patch old, u.patch? = some patch →
    (before.cell u.identity).work = some old → KeepsZeroSigns old.fields patch.fields

def WorkImage (group : CommitGroup) (before : RecordSnapshot) (delta : CommitDelta)
    (after : RecordSnapshot) (version : RecordVersion) : Prop :=
  (∃ row ∈ delta.work, row.key = version.key ∧ row.record.version = version.version ∧
    ∃ stored, after.work[version.key]? = some stored ∧ SameRow stored row ∧
      (KeepsSigns group before → stored.record = row.record) ∧
      ((∀ old, before.work[version.key]? = some old → old.fieldCoverage = .complete) →
        stored.fieldCoverage = row.fieldCoverage)) ∨
  (version.key ∈ delta.deletedWork ∧ after.work[version.key]? = none)

def StateImage (delta : CommitDelta) (after : RecordSnapshot) (collection : String)
    (version : RecordVersion) : Prop :=
  (∃ row ∈ delta.state, row.collection = collection ∧ row.key = version.key ∧
    row.version = version.version ∧ after.state[(collection, version.key)]? = some row) ∨
  ((collection, version.key) ∈ delta.deletedState ∧
    after.state[(collection, version.key)]? = none)

structure CommittedImage (group : CommitGroup) (before : RecordSnapshot) (delta : CommitDelta)
    (versions : List RecordVersion) (after : RecordSnapshot) : Prop where
  order : (versions.map fun v => (v.collection, v.key)) = group.modifiedRecords
  otherWork : ∀ key : String, (none, key) ∉ group.modifiedRecords →
    after.work[key]? = before.work[key]?
  otherState : ∀ id : String × String, (some id.1, id.2) ∉ group.modifiedRecords →
    after.state[id]? = before.state[id]?
  otherVersions : ∀ id : RecordIdentity, id.pair ∉ group.modifiedRecords →
    after.versions[id]? = before.versions[id]?
  listed : ∀ v ∈ versions, after.versions[versionIdentity v]? = some v.version ∧
    match v.collection with
    | none => WorkImage group before delta after v
    | some collection => StateImage delta after collection v

/-- An update of a completely loaded record leaves it completely loaded. -/
theorem Payload.complete {now : Int64} {cell : Cell} {u : GroupUpdate} {row : StoredWork}
    (payload : Payload now cell u row)
    (complete : ∀ old, cell.work = some old → old.fieldCoverage = .complete) :
    row.fieldCoverage = .complete := by
  cases payload with
  | edited found _ core =>
    have coverage := congrArg RowCore.coverage core
    simpa [StoredWork.core, patchWork, complete _ found] using coverage
  | whole _ fresh => rw [fresh]; rfl

/-- Merging into a completely loaded record, or into none, gives a complete record. -/
theorem mergeRow_complete {old : Option StoredWork} {row : StoredWork} {change : ResolvedFields}
    {body : ResolvedBody} (viewed : validateWorkWriteView old row change body = .ok ())
    (complete : ∀ stored, old = some stored → stored.fieldCoverage = .complete) :
    (mergeRow old row change body).fieldCoverage = .complete := by
  cases old with
  | none =>
    have fieldsOk := (check_bind_eq_ok.mp viewed).2
    cases change with
    | replace fields => rfl
    | _ => simp [validateFieldView] at fieldsOk
  | some stored => cases change <;> simp [mergeRow, applyToView, complete stored rfl]

/-! ## Exact records -/

/-- Each field a resolved command leaves is the old one or that of the new row. -/
theorem resolveFields_values {old row : StoredWork} {definition : CollectionDefinition}
    {change : ResolvedFields} (resolved : resolveFields old row definition = .ok change)
    (field : String) : (change.apply old.fields)[field]? = old.fields[field]? ∨
      (change.apply old.fields)[field]? = row.fields[field]? := by
  obtain ⟨view, viewed, resolved⟩ := bind_eq_ok.mp resolved
  obtain rfl := view_eq_ok viewed
  obtain ⟨edits, collected, resolved⟩ := bind_eq_ok.mp resolved
  have values : ∀ (field : String) edit, edits[field]? = some edit → edit = row.fields[field]? := by
    refine foldlM_invariant (P := fun _ (edits : FieldEdits) => ∀ (field : String) edit,
      edits[field]? = some edit → edit = row.fields[field]?) (by simp) ?_ collected
    intro _ name edits _ holds step field edit
    obtain ⟨_, -, step⟩ := bind_eq_ok.mp step
    cases step
    split
    · exact holds field edit
    · by_cases here : name = field
      · subst here
        rw [get_insert_self]
        exact fun same => (Option.some.inj same).symm
      · rw [get_insert_ne _ _ here]
        exact holds field edit
  obtain ⟨actual, rfl, named, -⟩ := resolveEdits_spec (.self _) resolved
  rw [get_apply_actual]
  cases present : actual[field]? with
  | none => exact .inl rfl
  | some edit =>
    rw [named, Option.filter_eq_some_iff] at present
    exact .inr (values field edit (by simpa [requested, underAny] using present.1))

theorem mem_replacements {group : CommitGroup} {key : String} :
    (replacements group).contains key = true ↔
      ∃ w ∈ group.workUpdates, (∃ work, w.change = .replace work) ∧ w.key = key := by
  rw [replacements, ExtTreeSet.contains_ofList, contains_iff_mem, mem_filterMap]
  refine exists_congr fun w => and_congr_right fun _ => ?_
  cases w.change <;> simp

section Main

variable [Sha256] {group : CommitGroup} {snapshot : RecordSnapshot} {now : Int64}
  {schema : QueueSchema}

theorem Outcome.whole_cases {cell : Cell} {sequence next : UInt64} {u : GroupUpdate}
    {effect : Effect} {work : NewWork}
    (outcome : Outcome now schema cell sequence u (some effect) next)
    (whole : u.whole? = some work) :
    (u = .insert work ∧ cell.work = none) ∨ ∃ w, u = .unclaimed w ∧ w.change = .replace work := by
  cases outcome with
  | inserted absent =>
    cases whole
    exact .inl ⟨rfl, absent⟩
  | replaced _ _ change =>
    simp only [GroupUpdate.whole?, change, Option.some.injEq] at whole
    subst whole
    exact .inr ⟨_, rfl, change⟩
  | administrative _ _ change => simp [GroupUpdate.whole?, change] at whole
  | patched _ _ change => simp [GroupUpdate.whole?, change] at whole
  | deleted _ _ change => simp [GroupUpdate.whole?, change] at whole
  | _ => cases whole

section

variable (commit : Commit group snapshot now schema) (distinct : group.addressed.Nodup)

include commit distinct

/-- The update that wrote a row of the delta, and what it writes. -/
theorem Commit.row_source {row : StoredWork} (member : row ∈ commit.delta.work) :
    ∃ u ∈ updates group, u.identity = ⟨none, row.key⟩ ∧
      Payload now (snapshot.cell u.identity) u row ∧
      ∀ work, u.whole? = some work → snapshot.work[row.key]? = none ∨
        (replacements group).contains row.key = true := by
  rw [commit.delta_eq distinct] at member
  obtain ⟨effect, among, written⟩ := mem_filterMap.mp member
  obtain ⟨u, listed, _, _, outcome, _⟩ := commit.effect_source among
  have id := (effect.workRow?_eq_some (commit.effect_shaped effect among) written).1
  rw [outcome.identity_eq] at id
  refine ⟨u, listed, id, outcome.payload written, fun work whole => ?_⟩
  rcases outcome.whole_cases whole with ⟨-, absent⟩ | ⟨w, rfl, change⟩
  · rw [id] at absent
    exact .inl absent
  · refine .inr (mem_replacements.mpr ⟨w, ?_, ⟨work, change⟩, congrArg RecordIdentity.key id⟩)
    simpa [updates] using listed

/-- The merged record is that of the delta, unless a patch changed the sign of a zero. -/
theorem Commit.record_exact {row : StoredWork} {change : ResolvedFields} {body : ResolvedBody}
    (signs : KeepsSigns group snapshot) (member : row ∈ commit.delta.work)
    (command : commit.Command row change body) :
    (mergeRow snapshot.work[row.key]? row change body).record = row.record := by
  obtain ⟨bodyOk, fieldsOk⟩ := check_bind_eq_ok.mp command.viewed
  have bytes := validateBodyView_sound bodyOk
  suffices fields : change.apply (snapshot.work[row.key]?.elim ∅ StoredWork.fields) = row.fields by
    simp only [mergeRow, applyToView, fields, bytes]
    rfl
  obtain ⟨u, listed, id, payload, whole⟩ := commit.row_source distinct member
  have resolved := command.resolved
  rw [resolveRow] at resolved
  cases found : snapshot.work[row.key]? with
  | none =>
    rw [found] at resolved
    cases resolved
    rfl
  | some old =>
    cases replaced : (replacements group).contains row.key with
    | true =>
      simp only [found, replaced, if_true] at resolved
      cases resolved
      rfl
    | false =>
      simp only [found, replaced, Bool.false_eq_true, if_false] at resolved
      obtain ⟨_, resolvedFields, final⟩ := bind_eq_ok.mp resolved
      cases final
      refine ExtTreeMap.ext_getElem? fun field => ?_
      rcases resolveFields_values resolvedFields field with kept | written
      · -- the field is kept because its values are equal; a patch of it is no change of sign
        cases payload with
        | @edited stored patch present requested core =>
          rw [id] at present
          cases found.symm.trans present
          have patched : row.fields = applyFieldEdits old.fields patch.fields :=
            congrArg RowCore.fields core
          have same := Fields.eq_iff.mp (validateFieldView_sound fieldsOk) field
          rw [found, Option.elim_some, kept, patched] at same
          rw [Option.elim_some, kept, patched]
          exact (signs u listed patch old requested (by rw [id]; exact found)).kept same
        | whole requested fresh =>
          rcases whole _ requested with absent | contains
          · cases found.symm.trans absent
          · cases replaced.symm.trans contains
      · exact written

theorem Commit.workImage {version : RecordVersion} (member : version ∈ commit.delta.versions)
    (work : version.collection = none) :
    WorkImage group snapshot commit.delta commit.after version := by
  have shaped := commit.shaped distinct
  obtain ⟨collection, key, number⟩ := version
  obtain rfl : collection = none := work
  rcases (shaped.workListed key).mp (mem_map.mpr ⟨_, member, rfl⟩) with listed | deleted
  · obtain ⟨row, inRows, rfl⟩ := mem_map.mp listed
    have same := inj_on_of_nodup_map shaped.versions (shaped.workVersion row inRows) member rfl
    obtain ⟨change, body, command, stored⟩ := commit.after_work_put distinct inRows
    refine .inl ⟨row, inRows, rfl, congrArg RecordVersion.version same, _, stored,
      mergeRow_same command.viewed, fun signs => commit.record_exact distinct signs inRows command,
      fun complete => ?_⟩
    obtain ⟨u, -, id, payload, -⟩ := commit.row_source distinct inRows
    rw [mergeRow_complete command.viewed complete, payload.complete fun old found => ?_]
    rw [id] at found
    exact complete old found
  · exact .inr ⟨deleted, commit.after_work_deleted distinct deleted⟩

theorem Commit.stateImage {version : RecordVersion} {collection : String}
    (member : version ∈ commit.delta.versions) (state : version.collection = some collection) :
    StateImage commit.delta commit.after collection version := by
  have shaped := commit.shaped distinct
  obtain ⟨_, key, number⟩ := version
  cases state
  rcases (shaped.stateListed (collection, key)).mp (mem_map.mpr ⟨_, member, rfl⟩) with
    listed | deleted
  · obtain ⟨row, inRows, same⟩ := mem_map.mp listed
    cases same
    have same := inj_on_of_nodup_map shaped.versions (shaped.stateVersion row inRows) member
      rfl
    exact .inl ⟨row, inRows, rfl, rfl, congrArg RecordVersion.version same,
      commit.after_state_put distinct inRows⟩
  · exact .inr ⟨deleted, commit.after_state_deleted distinct deleted⟩

theorem Commit.committedImage :
    CommittedImage group snapshot commit.delta commit.delta.versions commit.after := by
  have order := commit.versions_eq_modifiedRecords distinct
  have listed : ∀ id : RecordIdentity,
      id ∈ commit.delta.versions.map versionIdentity → id.pair ∈ group.modifiedRecords := by
    intro id member
    rw [← order]
    obtain ⟨v, among, rfl⟩ := mem_map.mp member
    exact mem_map.mpr ⟨v, among, rfl⟩
  refine ⟨order, ?_, ?_, ?_, ?_⟩
  · exact fun key other => commit.after_work_other distinct fun member => other (listed _ member)
  · exact fun id other => commit.after_state_other distinct fun member => other (listed _ member)
  · exact fun id other => commit.after_versions_other fun member => other (listed _ member)
  · intro v member
    refine ⟨commit.after_versions_listed distinct member, ?_⟩
    split
    · next work => exact commit.workImage distinct member work
    · next collection state => exact commit.stateImage distinct member state

end

/-- Planning a validated group either leaves the snapshot as it was, with an error or with a
rejection whose delta is empty, or commits: the receipt lists the modified records of the group in
order, all other records keep their row and high-water, and each listed record is what the delta
says. -/
theorem planCommitGroup_atomic {admission : QueueSchema} {limits : QueueLimits}
    {queue : QueueAddress} {groups : List CommitGroup}
    (validated : validateCommitGroups admission limits queue groups = .ok ())
    (member : group ∈ groups) :
    match planCommitGroup group snapshot now schema with
    | (.error _, after) => after = snapshot
    | (.ok delta, after) =>
      match delta.receipt.outcome with
      | .rejected reason => after = snapshot ∧
          delta = .unchanged snapshot.nextSequence ⟨group.requestId, .rejected reason⟩
      | .committed versions => CommittedImage group snapshot delta versions after
      | _ => False := by
  have distinct := ((validateCommitGroups_admitted validated).2 group member).distinct
  rcases planCommitGroup_cases group snapshot now schema distinct with
    ⟨e, failed⟩ | ⟨reason, -, rejected⟩ | ⟨commit, committed⟩
  · rw [failed]
  · rw [rejected]
    exact ⟨rfl, rfl⟩
  · have receipt : commit.delta.receipt.outcome = .committed commit.delta.versions := by
      rw [commit.delta_eq distinct]
      rfl
    rw [committed]
    simp only [receipt]
    exact commit.committedImage distinct

end Main

/-- Patching a field of a selectively loaded row commits. -/
theorem planCommitGroup_atomic_patch :
    match @planCommitGroup sampleSha256 (samplePatch (.ofList [("a", some (.integer 1))] compare))
      (sampleSnapshot (sampleRow (.ofList [("a", .integer 1)] compare) (.selected ∅ ∅))) 0
      sampleSchema with
    | (.error _, after) => after =
        sampleSnapshot (sampleRow (.ofList [("a", .integer 1)] compare) (.selected ∅ ∅))
    | (.ok delta, after) =>
      match delta.receipt.outcome with
      | .rejected reason => after =
          sampleSnapshot (sampleRow (.ofList [("a", .integer 1)] compare) (.selected ∅ ∅)) ∧
          delta = .unchanged 1 ⟨"r", .rejected reason⟩
      | .committed versions =>
        CommittedImage (samplePatch (.ofList [("a", some (.integer 1))] compare))
          (sampleSnapshot (sampleRow (.ofList [("a", .integer 1)] compare) (.selected ∅ ∅))) delta
          versions after
      | _ => False :=
  @planCommitGroup_atomic sampleSha256 (samplePatch (.ofList [("a", some (.integer 1))] compare))
    (sampleSnapshot (sampleRow (.ofList [("a", .integer 1)] compare) (.selected ∅ ∅))) 0
    sampleSchema sampleSchema .default sampleQueue
    [samplePatch (.ofList [("a", some (.integer 1))] compare)] (by decide +kernel)
    (mem_singleton_self _)

def storesOtherRow (result : QueueResult CommitDelta × RecordSnapshot) : Bool :=
  match result with
  | (.ok delta, after) =>
    match delta.receipt.outcome with
    | .committed _ => delta.work.any fun row => after.work[row.key]? != some row
    | _ => false
  | _ => false

/-- Two validated patches that change nothing: of a field of a selectively loaded row, whose
coverage grows in the delta only, and of a zero by the zero of the other sign, which the delta
carries and the snapshot does not store. -/
theorem committed_row_differs_from_delta :
    (validateCommitGroups sampleSchema .default sampleQueue
        [samplePatch (.ofList [("a", some (.integer 1))] compare)] = .ok () ∧
      storesOtherRow (@planCommitGroup sampleSha256
        (samplePatch (.ofList [("a", some (.integer 1))] compare))
        (sampleSnapshot (sampleRow (.ofList [("a", .integer 1)] compare) (.selected ∅ ∅))) 0
        sampleSchema) = true) ∧
    validateCommitGroups sampleSchema .default sampleQueue
        [samplePatch (.ofList [("z", some (.float ⟨0x8000000000000000⟩))] compare)] = .ok () ∧
      storesOtherRow (@planCommitGroup sampleSha256
        (samplePatch (.ofList [("z", some (.float ⟨0x8000000000000000⟩))] compare))
        (sampleSnapshot (sampleRow (.ofList [("z", .float ⟨0⟩)] compare) .complete)) 0
        sampleSchema) = true := by
  decide +kernel

end QueuePlanner
