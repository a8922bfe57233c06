import Fireweed.QueueIndex

/-!
# Checked field views and resolved commands

A stored row may carry only some of its fields. A checked view knows which names
it speaks for and refuses to report an unloaded field as absent. Resolved
commands are the exact field and body writes of a planned change.
-/

namespace QueueFields

open BTree Checked List QueueContract QueueIndex Std

def unknown (message : String) : QueueError := .outcomeUnknown message

inductive FieldCoverage where
  | complete
  | selected (names prefixes : BTreeSet String)
deriving DecidableEq

namespace FieldCoverage

/-- Whether the absence of a name is certified. -/
def covers : FieldCoverage → String → Bool
  | complete, _ => true
  | selected names prefixes, field =>
    names.contains field || prefixes.toList.any (startsWith field)

/-- A blank prefix would certify every name. -/
def hasBlankPrefix : FieldCoverage → Bool
  | complete => false
  | selected _ prefixes => prefixes.toList.any blank

end FieldCoverage

structure CheckedFields where
  fields : Fields
  coverage : FieldCoverage

namespace CheckedFields

def new (fields : Fields) (coverage : FieldCoverage) : QueueResult CheckedFields := do
  rejectIf coverage.hasBlankPrefix (unknown "empty field-coverage prefix")
  .ok ⟨fields, coverage⟩

def get (view : CheckedFields) (field : String) : QueueResult (Option FieldValue) :=
  match view.fields[field]? with
  | some value => .ok (some value)
  | none =>
    if view.coverage.covers field then .ok none
    else .error (unknown "field absence outside loaded authority")

/-- Enumerate the fields under a certified prefix. -/
def under (view : CheckedFields) (pre : String) : QueueResult (List (String × FieldValue)) := do
  rejectIf (blank pre) (unknown "empty field-enumeration prefix")
  let covered := match view.coverage with
    | .complete => true
    | .selected _ prefixes => prefixes.toList.any (startsWith pre)
  rejectIf (!covered) (unknown "prefix enumeration outside loaded authority")
  .ok (view.fields.toList.filter fun entry => startsWith entry.1 pre)

end CheckedFields

inductive ResolvedFields where
  | preserve
  | replace (fields : Fields)
  | edit (edits : FieldEdits)
deriving DecidableEq

/-- One entry of an edit: a value is stored, an absent one removes the field. -/
def applyEdit (fields : Fields) (edit : String × Option FieldValue) : Fields :=
  match edit.2 with
  | some value => fields.insert edit.1 value
  | none => fields.erase edit.1

def applyFieldEdits (fields : Fields) (edits : FieldEdits) : Fields :=
  edits.toList.foldl applyEdit fields

theorem get_applyEdit (fields : Fields) (edit : String × Option FieldValue) (field : String) :
    (applyEdit fields edit)[field]? = if edit.1 = field then edit.2 else fields[field]? := by
  obtain ⟨name, value⟩ := edit
  cases value with
  | some value => exact get_insert fields name field value
  | none => exact get_erase fields name field

theorem get_foldl_applyEdit (fields : Fields) (edits : List (String × Option FieldValue))
    (distinct : (edits.map Prod.fst).Nodup) (field : String) :
    (edits.foldl applyEdit fields)[field]? =
      ((edits.find? fun edit => edit.1 = field).map Prod.snd).getD fields[field]? := by
  induction edits generalizing fields with
  | nil => rfl
  | cons edit edits ih =>
    rw [map_cons, nodup_cons] at distinct
    rw [foldl_cons, ih _ distinct.2, get_applyEdit]
    by_cases here : edit.1 = field
    · have later : edits.find? (fun edit => edit.1 = field) = none := by
        rw [find?_eq_none]
        intro other member
        simp only [decide_eq_true_eq]
        intro clash
        exact distinct.1 (here ▸ clash ▸ mem_map_of_mem member)
      simp [here, later]
    · simp [here]

/-- Edits write the names they list and leave the others. -/
theorem get_applyFieldEdits (fields : Fields) (edits : FieldEdits) (field : String) :
    (applyFieldEdits fields edits)[field]? = edits[field]?.getD fields[field]? := by
  rw [applyFieldEdits, get_foldl_applyEdit _ _ (keys_toList_nodup edits)]
  cases present : edits[field]? with
  | some value =>
    have member := (mem_toList_iff edits field value).mpr present
    obtain ⟨edit, found⟩ := Option.isSome_iff_exists.mp
      (find?_isSome.mpr ⟨(field, value), member, by simp⟩ :
        (edits.toList.find? fun edit => edit.1 = field).isSome)
    have name : edit.1 = field := by simpa using find?_some found
    have same := (mem_toList_iff edits edit.1 edit.2).mp (mem_of_find?_eq_some found)
    rw [name, present, Option.some.injEq] at same
    simp [found, same]
  | none =>
    have missing : edits.toList.find? (fun edit => edit.1 = field) = none := by
      rw [find?_eq_none]
      intro edit member
      have entry := (mem_toList_iff edits edit.1 edit.2).mp member
      simp only [decide_eq_true_eq]
      rintro rfl
      rw [present] at entry
      cases entry
    simp [missing]

namespace ResolvedFields

def isReplace : ResolvedFields → Bool
  | replace _ => true
  | _ => false

def apply (change : ResolvedFields) (fields : Fields) : Fields :=
  match change with
  | preserve => fields
  | replace replacement => replacement
  | edit edits => applyFieldEdits fields edits

/-- Ordered composition of field intents. -/
def then_ : ResolvedFields → ResolvedFields → ResolvedFields
  | old, preserve => old
  | _, replace fields => replace fields
  | preserve, next => next
  | replace fields, edit edits => replace (applyFieldEdits fields edits)
  | edit old, edit next => edit (old.insertMany next.toList)

def after (change : ResolvedFields) (before : CheckedFields) (field : String) :
    QueueResult (Option FieldValue) :=
  match change with
  | preserve => before.get field
  | replace fields => .ok fields[field]?
  | edit edits =>
    match edits[field]? with
    | some value => .ok value
    | none => before.get field

/-- Whether the change names a field explicitly. -/
def edits? (change : ResolvedFields) (field : String) : Bool :=
  match change with
  | edit edits => edits.contains field
  | _ => false

end ResolvedFields

/-! ## Edit resolution -/

def removePrefix (before : CheckedFields) (definition : CollectionDefinition)
    (edits : FieldEdits) (pre : String) : QueueResult FieldEdits := do
  rejectIf (blank pre || !definition.additionalFieldPrefixes.toList.any (startsWith pre))
    (.invalid "prefix removal outside provisioned namespace")
  let matching ← before.under pre
  .ok (matching.foldl (fun edits entry => edits.insert entry.1 none) edits)

def validateEdit (definition : CollectionDefinition) (entry : String × Option FieldValue) :
    QueueResult Unit :=
  match entry.2 with
  | some value => definition.validateValue entry.1 value
  | none => .ok ()

def addExplicit (before : CheckedFields) (definition : CollectionDefinition)
    (edits : FieldEdits) (entry : String × Option FieldValue) : QueueResult FieldEdits := do
  rejectIf (blank entry.1 || !definition.admitsField entry.1) (.invalid "undeclared field edit")
  validateEdit definition entry
  let _ ← before.get entry.1
  .ok (edits.insert entry.1 entry.2)

/-- Keep an edit only if it differs from the old value. -/
def keepActual (before : CheckedFields) (actual : FieldEdits)
    (entry : String × Option FieldValue) : QueueResult FieldEdits := do
  let old ← before.get entry.1
  .ok (if valueEq old entry.2 then actual else actual.insert entry.1 entry.2)

/-- Prefix removals come before explicit edits, so additions win; no-op edits are dropped. -/
def resolveEdits (before : CheckedFields) (explicit : FieldEdits)
    (removePrefixes : BTreeSet String) (definition : CollectionDefinition) :
    QueueResult ResolvedFields := do
  let edits ← removePrefixes.toList.foldlM (removePrefix before definition) ∅
  let edits ← explicit.toList.foldlM (addExplicit before definition) edits
  let actual ← edits.toList.foldlM (keepActual before) ∅
  .ok (if actual.isEmpty then .preserve else .edit actual)

/-! ## Index effects -/

structure IndexEffect where
  index : String
  unique : Bool
  beforeUnique : Bool
  afterUnique : Bool
  before : Option (List UInt8)
  after : Option (List UInt8)
deriving DecidableEq

structure EncodedIndexTuple where
  sort : List UInt8
  complete : Bool

/-- A tuple always has a query key; only a complete one can own a unique index. -/
def encodeIndexTuple (values : List (Option FieldValue)) : QueueResult EncodedIndexTuple := do
  let sort ← encodeValues values
  .ok ⟨sort, values.all Option.isSome⟩

def indexIsAffected (columns : List String) (all : Bool) (changed : String → Bool) : Bool :=
  all || columns.any changed

def validateTuple (definition : CollectionDefinition) (columns : List String)
    (values : List (Option FieldValue)) : QueueResult Unit :=
  forM (columns.zip values) fun entry =>
    match entry.2 with
    | some value =>
      match definition.validateValue entry.1 value with
      | .ok () => .ok ()
      | .error _ => .error (unknown "invalid resolved index field authority")
    | none => .ok ()

def indexEffect (before : CheckedFields) (change : ResolvedFields)
    (definition : CollectionDefinition) (effects : List IndexEffect)
    (entry : String × List String) : QueueResult (List IndexEffect) :=
  if !indexIsAffected entry.2 change.isReplace change.edits? then .ok effects
  else do
    let oldValues ← entry.2.mapM before.get
    let newValues ← entry.2.mapM (change.after before)
    validateTuple definition entry.2 oldValues
    validateTuple definition entry.2 newValues
    let unique := definition.uniqueIndexes.contains entry.1
    let old ← encodeIndexTuple oldValues
    let new ← encodeIndexTuple newValues
    .ok (if old.sort = new.sort then effects
      else effects ++ [{
        index := entry.1
        unique := unique
        beforeUnique := unique && old.complete
        afterUnique := unique && new.complete
        before := some old.sort
        after := some new.sort }])

/-- Old and new keys of every declared index a change affects. -/
def resolveIndexEffects (before : CheckedFields) (change : ResolvedFields)
    (definition : CollectionDefinition) : QueueResult (List IndexEffect) :=
  definition.indexes.toList.foldlM (indexEffect before change definition) []

/-- Apply a command to a selective view: edited names become certified, a replacement
becomes complete. -/
def applyToView (fields : Fields) (coverage : FieldCoverage) (change : ResolvedFields) :
    Fields × FieldCoverage :=
  let coverage := match change, coverage with
    | .replace _, _ => .complete
    | .edit edits, .selected names prefixes => .selected (names.insertMany edits.keys) prefixes
    | _, coverage => coverage
  (change.apply fields, coverage)

/-! ## Bodies -/

inductive ResolvedBody where
  | preserve
  | replace (body : List UInt8)
deriving DecidableEq

namespace ResolvedBody

def isReplace : ResolvedBody → Bool
  | replace _ => true
  | preserve => false

def applyToView (change : ResolvedBody) (body : List UInt8) (loaded : Bool) :
    List UInt8 × Bool :=
  match change with
  | replace value => (value, true)
  | preserve => (body, loaded)

end ResolvedBody

end QueueFields
