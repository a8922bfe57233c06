import Fireweed.QueuePlanner.Views

/-!
# Valid snapshots

The image check as a predicate on snapshots, and what its success on the
addressed part says about the whole image.
-/

namespace QueuePlanner

open BTree Checked QueueContract QueueFields Std

structure WorkRowValid (snapshot : RecordSnapshot) (key : String) (stored : StoredWork) : Prop where
  coherent : LeaseCoherent stored
  covered : stored.fieldCoverage.hasBlankPrefix = false
  keyed : stored.key = key
  highWater : snapshot.versions[RecordIdentity.mk none key]? = some stored.record.version
  positive : stored.record.version ≠ 0
  inserted : stored.record.insertionSequence ≠ 0
  sequenced : stored.record.insertionSequence ≤ snapshot.nextSequence

structure StateRowValid (snapshot : RecordSnapshot) (id : String × String) (row : StateRecord) :
    Prop where
  keyed : (row.collection, row.key) = id
  highWater : snapshot.versions[RecordIdentity.mk (some id.1) id.2]? = some row.version
  positive : row.version ≠ 0

/-- The image a planner accepts. -/
structure SnapshotValid (snapshot : RecordSnapshot) : Prop where
  work : ∀ (key : String) (stored : StoredWork), snapshot.work[key]? = some stored →
    WorkRowValid snapshot key stored
  state : ∀ (id : String × String) (row : StateRecord), snapshot.state[id]? = some row →
    StateRowValid snapshot id row

variable {stored : StoredWork} {snapshot : RecordSnapshot}

theorem validateRawWorkLease_eq_ok :
    validateRawWorkLease stored = .ok () ↔ LeaseCoherent stored := by
  rw [validateRawWorkLease, rejectIf_eq_ok]
  constructor
  · intro ok
    simp only [Bool.or_eq_false_iff, bne_eq_false_iff_eq] at ok
    exact ⟨by rw [← ok.1, decide_eq_true_iff], by rw [← ok.2, decide_eq_true_iff]⟩
  · rintro ⟨expiry, hash⟩
    simp only [Bool.or_eq_false_iff, bne_eq_false_iff_eq]
    exact ⟨by rw [Bool.eq_iff_iff, decide_eq_true_iff, expiry],
      by rw [Bool.eq_iff_iff, decide_eq_true_iff, hash]⟩

theorem view_ok_iff :
    stored.view = .ok ⟨stored.fields, stored.fieldCoverage⟩ ↔
      stored.fieldCoverage.hasBlankPrefix = false := by
  rw [StoredWork.view, CheckedFields.new, check_bind_eq_ok, rejectIf_eq_ok]
  simp

theorem validateWorkRow_eq_ok {key : String} :
    validateWorkRow snapshot (key, stored) = .ok () ↔ WorkRowValid snapshot key stored := by
  rw [validateWorkRow, check_bind_eq_ok, validateRawWorkLease_eq_ok, bind_eq_ok]
  constructor
  · rintro ⟨coherent, view, viewed, ok⟩
    obtain rfl := view_eq_ok viewed
    simp only [rejectIf_eq_ok, Bool.or_eq_false_iff, bne_eq_false_iff_eq, beq_eq_false_iff_ne,
      decide_eq_false_iff_not] at ok
    obtain ⟨⟨⟨⟨keyed, positive⟩, highWater⟩, inserted⟩, sequenced⟩ := ok
    exact ⟨coherent, view_ok_iff.mp viewed, keyed, highWater, positive, inserted,
      UInt64.not_lt.mp sequenced⟩
  · intro valid
    refine ⟨valid.coherent, _, view_ok_iff.mpr valid.covered, ?_⟩
    simp only [rejectIf_eq_ok, Bool.or_eq_false_iff, bne_eq_false_iff_eq, beq_eq_false_iff_ne,
      decide_eq_false_iff_not]
    exact ⟨⟨⟨⟨valid.keyed, valid.positive⟩, valid.highWater⟩, valid.inserted⟩,
      UInt64.not_lt.mpr valid.sequenced⟩

theorem validateStateRow_eq_ok {id : String × String} {row : StateRecord} :
    validateStateRow snapshot (id, row) = .ok () ↔ StateRowValid snapshot id row := by
  rw [validateStateRow, rejectIf_eq_ok]
  simp only [Bool.or_eq_false_iff, bne_eq_false_iff_eq, beq_eq_false_iff_ne]
  constructor
  · rintro ⟨⟨⟨collection, key⟩, positive⟩, highWater⟩
    exact ⟨by rw [collection, key], highWater, positive⟩
  · rintro ⟨keyed, highWater, positive⟩
    exact ⟨⟨⟨congrArg Prod.fst keyed, congrArg Prod.snd keyed⟩, positive⟩, highWater⟩

/-- The image check accepts exactly the valid snapshots. -/
theorem validateSnapshot_eq_ok : validateSnapshot snapshot = .ok () ↔ SnapshotValid snapshot := by
  rw [validateSnapshot, check_bind_eq_ok, forM_eq_ok, forM_eq_ok]
  constructor
  · rintro ⟨work, state⟩
    constructor
    · intro key stored found
      exact validateWorkRow_eq_ok.mp (work (key, stored) ((mem_toList_iff _ key stored).mpr found))
    · intro id row found
      exact validateStateRow_eq_ok.mp (state (id, row) ((mem_toList_iff _ id row).mpr found))
  · rintro ⟨work, state⟩
    constructor
    · rintro ⟨key, stored⟩ member
      exact validateWorkRow_eq_ok.mpr (work key stored ((mem_toList_iff _ key stored).mp member))
    · rintro ⟨id, row⟩ member
      exact validateStateRow_eq_ok.mpr (state id row ((mem_toList_iff _ id row).mp member))

/-- The addressed rows of a snapshot whose addressed part was accepted are valid. -/
theorem addressed_workRowValid {group : CommitGroup}
    (valid : SnapshotValid (addressedSnapshot group snapshot)) {key : String}
    (addressed : RecordIdentity.mk none key ∈ addressedIdentities group)
    (found : snapshot.work[key]? = some stored) : WorkRowValid snapshot key stored := by
  obtain ⟨sequence, cells⟩ := addressedSnapshot_spec group snapshot
  have cell := cells ⟨none, key⟩
  rw [if_pos addressed] at cell
  have row : (addressedSnapshot group snapshot).work[key]? = some stored :=
    (congrArg Cell.work cell).trans found
  have version : (addressedSnapshot group snapshot).versions[RecordIdentity.mk none key]? =
      snapshot.versions[RecordIdentity.mk none key]? :=
    congrArg Cell.highWater cell
  have rowValid := valid.work key stored row
  exact ⟨rowValid.coherent, rowValid.covered, rowValid.keyed, version ▸ rowValid.highWater,
    rowValid.positive, rowValid.inserted, sequence ▸ rowValid.sequenced⟩

end QueuePlanner
