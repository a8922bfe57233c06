import Fireweed.Projection.Residents

/-!
# Rebuilding a projection from its image

An image carries the records only. Entering them one by one into an empty
projection succeeds as long as every record has index keys, gives back the records
up to documents that were left out, and establishes whatever each entry keeps.
-/

namespace Projection

open BTree Checked Domain List Std ProjectionImageItem

variable {Priority Value Typed : Type}

/-- A record after a round trip through the image. -/
def rebuiltRecord (documents : Documents Value Typed) (record : ItemRecord Priority Value Typed) :
    ItemRecord Priority Value Typed :=
  (ProjectionImageItem.ofRecord record).toRecord documents

namespace QueueDefinition

variable {definition : QueueDefinition Priority Value Typed}
  {record : ItemRecord Priority Value Typed}

/-- A document that is made again is not read for index keys. -/
theorem recordEntityIndexKeys_rebuilt :
    definition.recordEntityIndexKeys (rebuiltRecord definition.documents record) =
      definition.recordEntityIndexKeys record := by
  by_cases native : record.indexFields.isEmpty = true
  · have same : (rebuiltRecord definition.documents record).entityDocument =
        record.entityDocument := by
      cases document : record.entityDocument <;>
        simp [rebuiltRecord, ofRecord, toRecord,
          Documents.rehydrateEntityDocument, document, native]
    exact recordEntityIndexKeys_congr rfl rfl same
  · have reads : ∀ other : ItemRecord Priority Value Typed, other.indexFields = record.indexFields →
        definition.recordEntityIndexKeys other =
          definition.recordIndexKeys other.fields record.indexFields none := by
      intro other same
      rw [recordEntityIndexKeys, same, if_neg native]
    rw [reads record rfl, reads (rebuiltRecord definition.documents record) rfl]
    rfl

theorem keysOf_rebuilt : definition.keysOf (rebuiltRecord definition.documents record) =
    definition.keysOf record := by
  rw [keysOf, recordEntityIndexKeys_rebuilt, keysOf]

theorem keyable_rebuilt (keyable : definition.Keyable record) :
    definition.Keyable (rebuiltRecord definition.documents record) := by
  rw [Keyable, recordEntityIndexKeys_rebuilt, keysOf_rebuilt]
  exact keyable

end QueueDefinition

namespace ProjectionData

variable (definition : QueueDefinition Priority Value Typed)

/-- The projection after a record of an image has been entered. -/
def afterRestore (data : ProjectionData Priority Value Typed)
    (record : ItemRecord Priority Value Typed) : ProjectionData Priority Value Typed :=
  data.restored definition record (definition.keysOf record)

/-- The empty projection an image is entered into. -/
def imageBase (data : ProjectionData Priority Value Typed) : ProjectionData Priority Value Typed :=
  { new definition with
    paused := data.paused
    pauseDrainIntake := data.pauseDrainIntake
    blockedGates := data.blockedGates
    nextSeq := data.nextSeq }

/-- The records of an image in the order in which they are entered. -/
def imageRecords (data : ProjectionData Priority Value Typed) :
    List (ItemRecord Priority Value Typed) :=
  data.toImage.items.map (ProjectionImageItem.toRecord definition.documents)

def rebuilt (data : ProjectionData Priority Value Typed) : ProjectionData Priority Value Typed :=
  (data.imageRecords definition).foldl (afterRestore definition) (data.imageBase definition)

variable {definition} {data : ProjectionData Priority Value Typed}

variable {record : ItemRecord Priority Value Typed}

theorem restore_eq (keyable : definition.Keyable record) :
    restore definition data record = .ok (data.afterRestore definition record) := by
  cases superseded : record.superseded with
  | false =>
    have read : definition.recordEntityIndexKeys record = .ok (definition.keysOf record) := keyable
    simp only [restore, superseded, read, ok_bind]
    rfl
  | true => simp [restore, afterRestore, restored, superseded]

/-- The image lists every record once, in some order. -/
theorem imageRecords_perm : (data.imageRecords definition).Perm
    (data.items.toList.map fun entry => rebuiltRecord definition.documents entry.2) := by
  have perm : data.toImage.items.Perm
      (data.items.toList.map fun entry => ofRecord entry.2) :=
    mergeSort_perm _ _
  have mapped := perm.map (toRecord definition.documents)
  rw [List.map_map] at mapped
  exact mapped

theorem mem_imageRecords :
    record ∈ data.imageRecords definition ↔ ∃ (id : ItemId) (old : ItemRecord Priority Value Typed),
      data.items[id]? = some old ∧ rebuiltRecord definition.documents old = record := by
  rw [imageRecords_perm.mem_iff, mem_map]
  constructor
  · rintro ⟨⟨id, old⟩, member, rfl⟩
    exact ⟨id, old, (mem_toList_iff ..).mp member, rfl⟩
  · rintro ⟨id, old, found, rfl⟩
    exact ⟨(id, old), (mem_toList_iff ..).mpr found, rfl⟩

section

variable (resident : Resident definition data)

include resident

theorem imageRecords_nodup : ((data.imageRecords definition).map ItemRecord.itemId).Nodup := by
  have keys : data.items.toList.map (fun entry =>
      (rebuiltRecord definition.documents entry.2).itemId) = data.items.toList.map Prod.fst := by
    refine map_congr_left fun entry member => ?_
    exact resident.keyed entry.1 entry.2 ((mem_toList_iff ..).mp member)
  rw [(imageRecords_perm.map ItemRecord.itemId).nodup_iff, List.map_map]
  exact keys ▸ keys_toList_nodup data.items

/-- A projection whose records have keys can be rebuilt from its image. -/
theorem fromImage_toImage : fromImage definition data.toImage = .ok (data.rebuilt definition) := by
  have entered : ∀ (l : List (ItemRecord Priority Value Typed)),
      (∀ record ∈ l, definition.Keyable record) → ∀ base : ProjectionData Priority Value Typed,
        l.foldlM (restore definition) base = .ok (l.foldl (afterRestore definition) base) := by
    intro l
    induction l with
    | nil => exact fun _ _ => rfl
    | cons record rest ih =>
      intro keyable base
      rw [foldlM_cons, restore_eq (keyable record mem_cons_self)]
      exact ih (fun other member => keyable other (mem_cons_of_mem _ member)) _
  refine entered _ (fun record member => ?_) _
  obtain ⟨id, old, found, rfl⟩ := mem_imageRecords.mp member
  exact QueueDefinition.keyable_rebuilt (resident.keyable id old found)

/-- What the entry of each record of the image keeps holds of the rebuilt projection. -/
theorem rebuilt_invariant {P : ProjectionData Priority Value Typed → Prop}
    (start : P (data.imageBase definition))
    (keeps : ∀ base, ∀ record ∈ data.imageRecords definition, P base →
      base.items[record.itemId]? = none → P (base.afterRestore definition record)) :
    P (data.rebuilt definition) := by
  have general : ∀ (l : List (ItemRecord Priority Value Typed)),
      (∀ record ∈ l, record ∈ data.imageRecords definition) →
      (l.map ItemRecord.itemId).Nodup → ∀ base : ProjectionData Priority Value Typed, P base →
      (∀ record ∈ l, base.items[record.itemId]? = none) →
      P (l.foldl (afterRestore definition) base) := by
    intro l
    induction l with
    | nil => exact fun _ _ _ holds _ => holds
    | cons record rest ih =>
      intro among distinct base holds fresh
      rw [map_cons, nodup_cons] at distinct
      refine ih (fun other member => among other (mem_cons_of_mem _ member)) distinct.2 _
        (keeps base record (among record mem_cons_self) holds
          (fresh record mem_cons_self)) fun other member => ?_
      have different : record.itemId ≠ other.itemId := fun same =>
        distinct.1 (same ▸ mem_map_of_mem member)
      exact (get_insert_ne _ _ different).trans (fresh other (mem_cons_of_mem _ member))
  refine general _ (fun _ member => member) (imageRecords_nodup resident) _ start fun record _ => ?_
  simp [imageBase, new]

theorem rebuilt_items (id : ItemId) :
    (data.rebuilt definition).items[id]? =
      data.items[id]?.map (rebuiltRecord definition.documents) := by
  have items : ∀ (l : List (ItemRecord Priority Value Typed)) base,
      (l.foldl (afterRestore definition) base).items =
        l.foldl (fun items record => items.insert record.itemId record) base.items := by
    intro l
    induction l with
    | nil => exact fun _ => rfl
    | cons record rest ih => exact fun base => ih (base.afterRestore definition record)
  rw [rebuilt, items]
  cases found : data.items[id]? with
  | some old =>
    have member : rebuiltRecord definition.documents old ∈ data.imageRecords definition :=
      mem_imageRecords.mpr ⟨id, old, found, rfl⟩
    have own : (rebuiltRecord definition.documents old).itemId = id := resident.keyed id old found
    have here := get_foldl_insert_of_mem ItemRecord.itemId (fun record => record)
      (data.imageBase definition).items (imageRecords_nodup resident) member
    rw [own] at here
    exact here
  | none =>
    rw [get_foldl_insert_of_not_mem ItemRecord.itemId (fun record => record)]
    · simp [imageBase, new]
    · intro listed
      obtain ⟨record, member, same⟩ := mem_map.mp listed
      obtain ⟨other, old, found', rfl⟩ := mem_imageRecords.mp member
      have own : old.itemId = other := resident.keyed other old found'
      rw [show id = other from same.symm.trans own, found'] at found
      cases found

end

/-- The gates and the pause are those of the image. -/
theorem rebuilt_control (definition : QueueDefinition Priority Value Typed)
    (data : ProjectionData Priority Value Typed) : (data.rebuilt definition).paused = data.paused ∧
    (data.rebuilt definition).blockedGates = data.blockedGates := by
  have kept : ∀ (l : List (ItemRecord Priority Value Typed)) base,
      (l.foldl (afterRestore definition) base).paused = base.paused ∧
        (l.foldl (afterRestore definition) base).blockedGates = base.blockedGates := by
    intro l
    induction l with
    | nil => exact fun _ => ⟨rfl, rfl⟩
    | cons record rest ih => exact fun base => ih (base.afterRestore definition record)
  exact kept _ _

end ProjectionData

end Projection
