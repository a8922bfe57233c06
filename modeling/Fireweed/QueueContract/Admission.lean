import Fireweed.QueueContract.Groups

/-!
# What admission guarantees

The facts later stages rely on, read off a successful envelope check: records are
addressed once, checks carry no patch, expected versions are real, and every
written value is declared by the schema.
-/

namespace QueueContract

open BTree Checked QueueAdministration Std

variable {limits : QueueLimits}

section Values

variable (definition : CollectionDefinition)

/-- Every value of a field map is declared. -/
def FieldsAdmitted (values : Fields) : Prop :=
  ∀ (field : String) (value : FieldValue), values[field]? = some value →
    definition.validateValue field value = .ok ()

/-- Every edited name is declared and every new value is admitted. -/
def EditsAdmitted (edits : FieldEdits) : Prop :=
  ∀ (field : String) (edit : Option FieldValue), edits[field]? = some edit →
    blank field = false ∧ definition.admitsField field = true ∧
      ∀ value, edit = some value → definition.validateValue field value = .ok ()

variable {definition}

theorem fields_eq_ok {values : Fields} :
    fields values definition = .ok () ↔ FieldsAdmitted definition values := by
  rw [fields, forM_eq_ok]
  constructor
  · intro all field value present
    exact all (field, value) ((mem_toList_iff values field value).mpr present)
  · rintro all ⟨field, value⟩ member
    exact all field value ((mem_toList_iff values field value).mp member)

theorem name_eq_ok {value : String} : name value = .ok () ↔ blank value = false :=
  rejectIf_eq_ok

/-- An admitted value is valid for its own type, which is the declared one if there is one. -/
theorem validateValue_field {key : String} {value : FieldValue}
    (admitted : definition.validateValue key value = .ok ()) :
    field value value.fieldType = .ok () ∧
      ∀ kind, definition.fields[key]? = some kind → value.fieldType = kind := by
  obtain ⟨_, -, rest⟩ := bind_eq_ok.mp admitted
  cases declared : definition.fields[key]? with
  | some expected =>
    rw [declared] at rest
    obtain ⟨typed, finite⟩ := check_bind_eq_ok.mp rest
    have same : value.fieldType = expected := by simpa using rejectIf_eq_ok.mp typed
    refine ⟨?_, fun kind found => same.trans (Option.some.inj found)⟩
    rw [same]
    exact rest
  | none =>
    rw [declared] at rest
    refine ⟨?_, fun kind found => nomatch found⟩
    dsimp only at rest
    split at rest
    · exact rest
    · cases rest

variable {schema : QueueSchema}

theorem work_admitted {item : NewWork} (ok : work item schema limits = .ok ()) :
    blank item.key = false ∧ FieldsAdmitted schema.work item.fields := by
  obtain ⟨_, named, rest⟩ := bind_eq_ok.mp ok
  obtain ⟨_, checked, _⟩ := bind_eq_ok.mp rest
  exact ⟨name_eq_ok.mp named, fields_eq_ok.mp checked⟩

theorem patch_admitted {value : WorkPatch} (ok : patch value schema limits = .ok ()) :
    EditsAdmitted schema.work value.fields := by
  obtain ⟨_, each, _⟩ := bind_eq_ok.mp ok
  rw [forM_eq_ok] at each
  intro field edit present
  obtain ⟨_, named, rest⟩ :=
    bind_eq_ok.mp (each (field, edit) ((mem_toList_iff value.fields field edit).mpr present))
  obtain ⟨_, declared, checked⟩ := bind_eq_ok.mp rest
  refine ⟨name_eq_ok.mp named, by simpa using declared, ?_⟩
  rintro v rfl
  exact checked

end Values

/-! ## Groups -/

def UnclaimedChange.Admitted (schema : QueueSchema) (key : String) : UnclaimedChange → Prop
  | .patch p => EditsAdmitted schema.work p.fields
  | .administrative p _ _ => EditsAdmitted schema.work p.fields
  | .replace w => w.key = key ∧ FieldsAdmitted schema.work w.fields
  | .delete => True

def StateUpdate.Admitted (schema : QueueSchema) (update : StateUpdate) : Prop :=
  ∃ definition, schema.state[update.collection]? = some definition ∧
    ∀ values value, update.change = .put values value → FieldsAdmitted definition values

/-- What the planner relies on in a group. -/
structure CommitGroup.Admitted (schema : QueueSchema) (group : CommitGroup) : Prop where
  distinct : group.addressed.Nodup
  checks : ∀ u ∈ group.claimedUpdates, u.disposition = .check → u.patch = .empty
  claimed : ∀ u ∈ group.claimedUpdates, EditsAdmitted schema.work u.patch.fields
  unclaimed : ∀ u ∈ group.workUpdates,
    (∃ v, u.expect = .version v ∧ v ≠ 0) ∧ u.change.Admitted schema u.key
  inserts : ∀ w ∈ group.workInserts, FieldsAdmitted schema.work w.fields
  states : ∀ u ∈ group.stateUpdates, u.expect ≠ .version 0 ∧ u.Admitted schema

theorem insertNew_eq_ok {κ : Type} [Ord κ] [TransOrd κ] {message : String} {seen seen' : BTreeSet κ}
    {key : κ} (ok : insertNew message seen key = .ok seen') :
    key ∉ seen ∧ seen' = seen.insert key := by
  rw [insertNew] at ok
  split at ok
  · cases ok
  · next fresh =>
    cases ok
    exact ⟨by simpa using fresh, rfl⟩

/-- A loop that inserts new keys only has seen each key once. -/
theorem foldlM_insertNew_nodup {κ : Type} [Ord κ] [TransOrd κ] [LawfulEqOrd κ] {message : String}
    {keys : List κ} {seen : BTreeSet κ} (ok : keys.foldlM (insertNew message) ∅ = .ok seen) :
    keys.Nodup := by
  have invariant := foldlM_invariant (P := fun consumed (seen : BTreeSet κ) =>
      consumed.Nodup ∧ ∀ k, k ∈ seen ↔ k ∈ consumed) (by simp) ?_ ok
  · exact invariant.1
  · rintro consumed key seen seen' ⟨nodup, members⟩ step
    obtain ⟨fresh, rfl⟩ := insertNew_eq_ok step
    refine ⟨List.nodup_append.mpr ⟨nodup, List.nodup_singleton key, ?_⟩, ?_⟩
    · rintro a earlier b last rfl
      rw [List.mem_singleton.mp last] at earlier
      exact fresh ((members key).mpr earlier)
    · intro k
      rw [ExtTreeSet.mem_insert, members, LawfulEqCmp.compare_eq_iff_eq, List.mem_append,
        List.mem_singleton, or_comm, eq_comm]

variable {group : CommitGroup}

theorem preflight_admitted {ids ids' : BTreeSet String}
    (ok : group.preflight limits ids = .ok ids') :
    group.addressed.Nodup ∧
      ∀ u ∈ group.claimedUpdates, u.disposition = .check → u.patch = .empty := by
  obtain ⟨_, _, ok⟩ := bind_eq_ok.mp ok
  obtain ⟨_, _, ok⟩ := bind_eq_ok.mp ok
  obtain ⟨_, _, ok⟩ := bind_eq_ok.mp ok
  obtain ⟨_, _, ok⟩ := bind_eq_ok.mp ok
  obtain ⟨_, checks, ok⟩ := bind_eq_ok.mp ok
  obtain ⟨_, distinct, _⟩ := bind_eq_ok.mp ok
  refine ⟨foldlM_insertNew_nodup distinct, ?_⟩
  intro u member check
  simpa [check] using (forM_eq_ok _ _).mp checks u member

section Updates

variable {schema : QueueSchema} {limits : QueueLimits}
variable {keys keys' : BTreeSet (Option String × String)}

theorem validateClaimed_admitted {u : ClaimedUpdate}
    (ok : validateClaimed schema limits keys u = .ok keys') :
    EditsAdmitted schema.work u.patch.fields := by
  obtain ⟨_, _, ok⟩ := bind_eq_ok.mp ok
  obtain ⟨_, _, ok⟩ := bind_eq_ok.mp ok
  obtain ⟨_, _, ok⟩ := bind_eq_ok.mp ok
  obtain ⟨_, _, ok⟩ := bind_eq_ok.mp ok
  obtain ⟨_, patched, _⟩ := bind_eq_ok.mp ok
  exact patch_admitted patched

theorem validateInsert_admitted {w : NewWork}
    (ok : validateInsert schema limits keys w = .ok keys') :
      FieldsAdmitted schema.work w.fields := by
  obtain ⟨_, _, ok⟩ := bind_eq_ok.mp ok
  obtain ⟨_, checked, _⟩ := bind_eq_ok.mp ok
  exact (work_admitted checked).2

theorem expect_eq_ok {value : StateExpect} (ok : expect value = .ok ()) : value ≠ .version 0 := by
  rintro rfl
  simp [expect] at ok

variable {u : UnclaimedUpdate}

theorem validateChange_admitted (ok : validateChange schema limits u = .ok ()) :
    u.change.Admitted schema u.key := by
  rw [validateChange] at ok
  cases requested : u.change with
  | patch p =>
    rw [requested] at ok
    exact patch_admitted ok
  | administrative p lifecycle leaseGuard =>
    rw [requested] at ok
    exact patch_admitted ok
  | replace w =>
    rw [requested] at ok
    obtain ⟨same, checked⟩ := check_bind_eq_ok.mp ok
    exact ⟨by simpa using same, (work_admitted checked).2⟩
  | delete => trivial

theorem validateUnclaimed_admitted (ok : validateUnclaimed schema limits keys u = .ok keys') :
    (∃ v, u.expect = .version v ∧ v ≠ 0) ∧ u.change.Admitted schema u.key := by
  obtain ⟨_, ok⟩ := check_bind_eq_ok.mp ok
  obtain ⟨_, _, ok⟩ := bind_eq_ok.mp ok
  obtain ⟨positive, ok⟩ := check_bind_eq_ok.mp ok
  obtain ⟨existing, ok⟩ := check_bind_eq_ok.mp ok
  obtain ⟨change, _⟩ := check_bind_eq_ok.mp ok
  refine ⟨?_, validateChange_admitted change⟩
  cases wanted : u.expect with
  | absent => simp [wanted] at existing
  | version v => exact ⟨v, rfl, fun zero => expect_eq_ok positive (by rw [wanted, zero])⟩

theorem validateState_admitted {u : StateUpdate}
    (ok : validateState schema limits keys u = .ok keys') :
    u.expect ≠ .version 0 ∧ u.Admitted schema := by
  obtain ⟨_, _, ok⟩ := bind_eq_ok.mp ok
  obtain ⟨_, positive, ok⟩ := bind_eq_ok.mp ok
  refine ⟨expect_eq_ok positive, ?_⟩
  cases declared : schema.state[u.collection]? with
  | none => simp [declared] at ok
  | some definition =>
    rw [declared] at ok
    obtain ⟨_, _, ok⟩ := bind_eq_ok.mp ok
    obtain ⟨change, _⟩ := check_bind_eq_ok.mp ok
    refine ⟨definition, declared, ?_⟩
    intro values value put
    rw [put, validateStateChange] at change
    obtain ⟨_, checked, _⟩ := bind_eq_ok.mp change
    exact fields_eq_ok.mp checked

theorem validate_admitted {identities identities' : BTreeSet String}
    (flown : group.addressed.Nodup ∧
      ∀ u ∈ group.claimedUpdates, u.disposition = .check → u.patch = .empty)
    (ok : group.validate schema limits identities = .ok identities') : group.Admitted schema := by
  obtain ⟨_, _, ok⟩ := bind_eq_ok.mp ok
  obtain ⟨_, _, ok⟩ := bind_eq_ok.mp ok
  obtain ⟨_, _, ok⟩ := bind_eq_ok.mp ok
  obtain ⟨_, _, ok⟩ := bind_eq_ok.mp ok
  obtain ⟨_, claimed, ok⟩ := bind_eq_ok.mp ok
  obtain ⟨_, inserts, ok⟩ := bind_eq_ok.mp ok
  obtain ⟨_, unclaimed, ok⟩ := bind_eq_ok.mp ok
  obtain ⟨_, states, _⟩ := bind_eq_ok.mp ok
  refine ⟨flown.1, flown.2, ?_, ?_, ?_, ?_⟩
  · intro u member
    obtain ⟨_, _, step⟩ := foldlM_each claimed u member
    exact validateClaimed_admitted step
  · intro u member
    obtain ⟨_, _, step⟩ := foldlM_each unclaimed u member
    exact validateUnclaimed_admitted step
  · intro w member
    obtain ⟨_, _, step⟩ := foldlM_each inserts w member
    exact validateInsert_admitted step
  · intro u member
    obtain ⟨_, _, step⟩ := foldlM_each states u member
    exact validateState_admitted step

/-- Every group of an accepted batch is admitted, and so is the schema. -/
theorem validateCommitGroups_admitted {queue : QueueAddress} {groups : List CommitGroup}
    (ok : validateCommitGroups schema limits queue groups = .ok ()) :
    schema.validate = .ok () ∧ ∀ g ∈ groups, g.Admitted schema := by
  obtain ⟨_, flown, ok⟩ := bind_eq_ok.mp ok
  obtain ⟨_, schemaOk, ok⟩ := bind_eq_ok.mp ok
  obtain ⟨_, _, ok⟩ := bind_eq_ok.mp ok
  obtain ⟨_, _, ok⟩ := bind_eq_ok.mp ok
  obtain ⟨_, each, _⟩ := bind_eq_ok.mp ok
  obtain ⟨_, _, flown⟩ := bind_eq_ok.mp flown
  obtain ⟨_, _, flown⟩ := bind_eq_ok.mp flown
  obtain ⟨_, before, _⟩ := bind_eq_ok.mp flown
  refine ⟨schemaOk, fun g member => ?_⟩
  obtain ⟨_, _, checked⟩ := foldlM_each before g member
  obtain ⟨_, _, validated⟩ := foldlM_each each g member
  exact validate_admitted (preflight_admitted checked) validated

end Updates

/-! ## A small queue -/

def sampleQueue : QueueAddress := ⟨"tenant", "queue"⟩

/-- An integer and a float field, with a unique index on the integer. -/
def sampleDefinition : CollectionDefinition where
  fields := .ofList [("a", .integer), ("z", .float)] compare
  indexes := .ofList [("by_a", ["a"])] compare
  uniqueIndexes := .ofList ["by_a"] compare
  additionalFieldPrefixes := ∅

def sampleSchema : QueueSchema where
  work := sampleDefinition
  state := .ofList [("s", sampleDefinition)] compare
  progressBoundNanos := 1
  maxAttempts := 3

example : sampleSchema.validate = .ok () := by decide +kernel

end QueueContract
