import Fireweed.QueuePlanner.Selection
import Fireweed.QueuePlanner.Atomicity

/-!
# Selective planning refines complete planning

A group planned on rows of which only its read closure is loaded has the receipt,
the commands and the ownership effects it has on the complete rows.
-/

namespace QueuePlanner

open List hiding map_map mem_iff_get
open BTree Checked QueueContract QueueFields QueueIndex Std GroupUpdate Fields

/-- The names to load for a record. -/
def namesFor (required : BTreeMap String (BTreeSet String)) (key : String) : BTreeSet String :=
  required[key]?.getD ∅

/-! ## Effects -/

section Effects

variable [Sha256] {now : Int64} {schema : QueueSchema} {snapshot : RecordSnapshot}
  {required : BTreeMap String (BTreeSet String)}

def SelectedEffect (now : Int64) (schema : QueueSchema) (snapshot : RecordSnapshot)
    (required : BTreeMap String (BTreeSet String)) (all : List GroupUpdate) (e e' : Effect) :
    Prop :=
  ∃ u ∈ all, (∃ before after,
    Outcome now schema (snapshot.cell u.identity) before u (some e) after) ∧
    Reads schema.work u (namesFor required u.identity.key) ∧
    e' = u.selected (namesFor required u.identity.key) e

omit [Sha256] in
theorem work_select {key : String} {names : BTreeSet String} (found : required[key]? = some names) :
    (snapshot.select required).work[key]? =
      snapshot.work[key]?.map (StoredWork.select · names) := by
  simp only [RecordSnapshot.select, ExtTreeMap.getElem?_map, found]

omit [Sha256] in
theorem cell_select {id : RecordIdentity}
    (listed : id.collection = none → required[id.key]?.isSome = true) :
    (snapshot.select required).cell id = (snapshot.cell id).select (namesFor required id.key) := by
  obtain ⟨collection, key⟩ := id
  cases collection with
  | none =>
    obtain ⟨names, found⟩ := Option.isSome_iff_exists.mp (listed rfl)
    simp only [RecordSnapshot.cell, Cell.select, Option.isNone_none, if_true, work_select found,
      namesFor, found, Option.getD_some]
    rfl
  | some collection => rfl

/-- Planning the effects of a group fails alike on the selected snapshot, and otherwise gives the
selected effects. -/
theorem planEffects_select {all us : List GroupUpdate} (within : us ⊆ all)
    (listed : ∀ u ∈ all, u.identity.collection = none →
      required[u.identity.key]?.isSome = true)
    (reads : ∀ u ∈ all, Reads schema.work u (namesFor required u.identity.key))
    (regular : ∀ (key : String) (row : StoredWork), snapshot.work[key]? = some row →
      eq row.fields row.fields = true) (sequence : UInt64) :
    Agree (fun result result' => result'.2 = result.2 ∧
        Forall₂ (SelectedEffect now schema snapshot required all) result.1 result'.1)
      (planEffects now schema snapshot sequence us)
      (planEffects now schema (snapshot.select required) sequence us) := by
  induction us generalizing sequence with
  | nil => exact ⟨rfl, .nil⟩
  | cons u rest ih =>
    have member : u ∈ all := within mem_cons_self
    have later := ih fun v among => within (mem_cons_of_mem u among)
    have plain : ∀ stored, (snapshot.cell u.identity).work = some stored →
        eq stored.fields stored.fields = true := by
      intro stored found
      have found : u.identity.collection = none ∧ snapshot.work[u.identity.key]? = some stored := by
        simpa [RecordSnapshot.cell] using found
      exact regular _ stored found.2
    have here := effect_select now schema sequence (reads u member).patched plain
    rw [← cell_select (listed u member)] at here
    simp only [planEffects, here]
    cases outcome : u.effect now schema (snapshot.cell u.identity) sequence with
    | error e => rfl
    | ok result =>
      obtain ⟨effect, next⟩ := result
      simp only [Except.map, ok_bind]
      have tail := later next
      revert tail
      cases planEffects now schema snapshot next rest <;>
        cases planEffects now schema (snapshot.select required) next rest <;> intro tail
      · exact tail
      · exact tail.elim
      · exact tail.elim
      · refine ⟨tail.1, rel_append ?_ tail.2⟩
        cases effect with
        | none => exact .nil
        | some e =>
          exact .cons ⟨u, member, ⟨sequence, next, effect_outcome outcome⟩, reads u member, rfl⟩
            .nil

end Effects

/-! ## Rows -/

/-- A row of a delta and its counterpart: a patched row is selected, a whole row is the same. -/
inductive SelectedRow (group : CommitGroup) (snapshot : RecordSnapshot)
    (definition : CollectionDefinition) (names : BTreeSet String) (row row' : StoredWork) : Prop
  | edited {old : StoredWork} {patch : WorkPatch} (found : snapshot.work[row.key]? = some old)
      (kept : (replacements group).contains row.key = false)
      (fields : row.fields = applyFieldEdits old.fields patch.fields)
      (patched : ∀ f, f ∈ patch.fields → f ∈ names)
      (touched : ∀ (index : String) (columns : List String),
        definition.indexes[index]? = some columns → (∃ c ∈ columns, c ∈ patch.fields) →
          ∀ c ∈ columns, c ∈ names)
      (selected : row' = row.select names)
  | whole (same : row' = row) (fresh : snapshot.work[row.key]? = none ∨
      (replacements group).contains row.key = true ∧
        ∀ index ∈ definition.uniqueIndexes, ∀ columns : List String,
          definition.indexes[index]? = some columns → ∀ c ∈ columns, c ∈ names)

section Rows

variable [Sha256] {now : Int64} {schema : QueueSchema} {snapshot : RecordSnapshot}
  {required : BTreeMap String (BTreeSet String)} {group : CommitGroup}

/-- The written rows of an effect and its counterpart. -/
theorem SelectedEffect.row {e e' : Effect} {row : StoredWork} (distinct : group.addressed.Nodup)
    (shaped : e.Shaped) (related : SelectedEffect now schema snapshot required (updates group) e e')
    (written : e.workRow? = some row) :
    ∃ row', e'.workRow? = some row' ∧
      SelectedRow group snapshot schema.work (namesFor required row.key) row row' := by
  obtain ⟨u, member, ⟨before, after, outcome⟩, reads, rfl⟩ := related
  have id := (e.workRow?_eq_some shaped written).1
  rw [outcome.identity_eq] at id
  have same : u.identity.key = row.key := by rw [id]
  rw [same] at reads ⊢
  have cell : (snapshot.cell u.identity).work = snapshot.work[row.key]? := by
    rw [id]
    rfl
  have replaced : ∀ w ∈ group.workUpdates, w.key = row.key → u = .unclaimed w := by
    intro w among key
    refine inj_on_of_nodup_map (updates_nodup distinct) member ?_ ?_
    · simp only [updates, mem_append, mem_map]
      exact .inl (.inr ⟨w, among, rfl⟩)
    · rw [id, ← key]
      rfl
  cases outcome.payload written with
  | @edited stored patch found requested core =>
    have partly : u.whole?.isSome = false := by
      cases u with
      | unclaimed w => cases change : w.change <;> simp_all [patch?, whole?]
      | insert w => cases requested
      | _ => rfl
    refine ⟨row.select (namesFor required row.key), ?_, .edited (cell ▸ found) ?_ ?_
      (reads.patched patch requested) (reads.touched patch requested) rfl⟩
    · rw [selected, partly]
      obtain ⟨identity, version, change⟩ := e
      cases change with
      | putWork r =>
        cases written
        rfl
      | _ => cases written
    · rw [← Bool.not_eq_true, mem_replacements]
      rintro ⟨w, among, ⟨work, change⟩, key⟩
      rw [replaced w among key] at partly
      simp [whole?, change] at partly
    · exact congrArg RowCore.fields core
  | @whole work sequence requested fresh =>
    refine ⟨row, ?_, .whole rfl ?_⟩
    · rw [selected, requested]
      exact written
    · rcases outcome.whole_cases requested with ⟨inserted, absent⟩ | ⟨w, unclaimed, change⟩
      · exact .inl (cell ▸ absent)
      · refine .inr ⟨mem_replacements.mpr ⟨w, ?_, ⟨work, change⟩, ?_⟩, reads.unique ?_⟩
        · rw [unclaimed] at member
          simpa [updates] using member
        · rw [← same, unclaimed]
          rfl
        · rw [unclaimed]
          simp [needsUnique, change]

section

variable {all : List GroupUpdate} {e e' : Effect}
  (related : SelectedEffect now schema snapshot required all e e')

include related

/-- An effect that writes no row is its own counterpart. -/
theorem SelectedEffect.same (bare : e.workRow? = none) : e' = e := by
  obtain ⟨u, -, -, -, rfl⟩ := related
  obtain ⟨identity, version, change⟩ := e
  cases change with
  | putWork row => cases bare
  | _ => simp [selected, Effect.select]

theorem SelectedEffect.identity :
    e'.identity = e.identity ∧ e'.recordVersion = e.recordVersion ∧
      e'.deletedWork? = e.deletedWork? ∧ e'.stateRow? = e.stateRow? ∧
      e'.deletedState? = e.deletedState? := by
  obtain ⟨u, -, -, -, rfl⟩ := related
  obtain ⟨identity, version, change⟩ := e
  rw [selected]
  split
  · simp
  · cases change <;> exact ⟨rfl, rfl, rfl, rfl, rfl⟩

end

end Rows

/-! ## Views -/

variable {definition : CollectionDefinition}

section Views

variable {old row : StoredWork} {names : BTreeSet String}

theorem get_complete (fields : Fields) (field : String) :
    CheckedFields.get ⟨fields, .complete⟩ field = .ok fields[field]? := by
  rw [CheckedFields.get]
  cases fields[field]? <;> rfl

theorem get_selected {field : String} (member : field ∈ names) :
    CheckedFields.get ⟨(old.select names).fields, .selected names ∅⟩ field =
      .ok old.fields[field]? := by
  rw [CheckedFields.get]
  simp only
  rw [get_select, if_pos member]
  cases old.fields[field]? with
  | some value => rfl
  | none => simp [FieldCoverage.covers, ExtTreeSet.contains_iff_mem.mpr member]

theorem view_complete (complete : old.fieldCoverage = .complete) :
    old.view = .ok ⟨old.fields, .complete⟩ := by
  simp only [StoredWork.view, complete, CheckedFields.new, FieldCoverage.hasBlankPrefix]
  rfl

theorem view_select :
    (old.select names).view = .ok ⟨(old.select names).fields, .selected names ∅⟩ := by
  have plain : (FieldCoverage.selected names ∅).hasBlankPrefix = false := by
    simp [FieldCoverage.hasBlankPrefix]
  exact check_bind_eq_ok.mpr ⟨rejectIf_eq_ok.mpr plain, rfl⟩

variable {view : CheckedFields} {explicit : FieldEdits}

/-- The fields that differ between a view and a new row, among the given names. -/
theorem foldlM_collectEdit {keys : List String}
    (answers : ∀ f ∈ keys, view.get f = .ok view.fields[f]?) :
    ∃ edits : FieldEdits, keys.foldlM (collectEdit view row) ∅ = .ok edits ∧
      ∀ field : String, edits[field]? =
        if field ∈ keys ∧ valueEq view.fields[field]? row.fields[field]? = false then
          some row.fields[field]? else none := by
  refine foldlM_total (P := fun seen (edits : FieldEdits) => ∀ field : String, edits[field]? =
    if field ∈ seen ∧ valueEq view.fields[field]? row.fields[field]? = false then
      some row.fields[field]? else none) (by simp) ?_
  intro seen name rest edits split holds
  have answer := answers name (by rw [split]; simp)
  refine ⟨_, bind_eq_ok.mpr ⟨_, answer, rfl⟩, ?_⟩
  intro field
  by_cases here : name = field
  · subst here
    cases differs : valueEq view.fields[name]? row.fields[name]? with
    | true => simp [holds, differs]
    | false => simp
  · have other : field ∈ seen ++ [name] ↔ field ∈ seen := by simp [Ne.symm here]
    simp only [other, ← holds field]
    split
    · rfl
    · exact get_insert_ne _ _ here

theorem foldlM_addExplicit {edits : FieldEdits}
    (ok : explicit.toList.foldlM (addExplicit view definition) ∅ = .ok edits) :
    edits = explicit := by
  refine ExtTreeMap.ext_getElem? fun field => ?_
  rw [(foldlM_addExplicit_eq ok).1, get_insertAll]
  simp

/-- Resolution reads a view only at the edited names. -/
theorem resolveEdits_congr {view' : CheckedFields} (definition : CollectionDefinition)
    (same : ∀ f, f ∈ explicit → view'.get f = view.get f) :
    resolveEdits view' explicit ∅ definition = resolveEdits view explicit ∅ definition := by
  have listed : ∀ entry ∈ explicit.toList, view'.get entry.1 = view.get entry.1 :=
    fun entry member => same entry.1 <|
      (mem_iff_get _ _).mpr ⟨entry.2, (mem_toList_iff _ entry.1 entry.2).mp member⟩
  have explicitly : ∀ start, explicit.toList.foldlM (addExplicit view' definition) start =
      explicit.toList.foldlM (addExplicit view definition) start := by
    refine foldlM_congr fun entry member edits => ?_
    rw [addExplicit, addExplicit, listed entry member]
  have actually : ∀ start, explicit.toList.foldlM (keepActual view') start =
      explicit.toList.foldlM (keepActual view) start := by
    refine foldlM_congr fun entry member actual => ?_
    rw [keepActual, keepActual, listed entry member]
  have empty : (∅ : BTreeSet String).toList = [] := by simp
  simp only [resolveEdits, empty, foldlM_nil, pure_bind, explicitly]
  cases added : explicit.toList.foldlM (addExplicit view definition) ∅ with
  | error e => rfl
  | ok edits =>
    obtain rfl := foldlM_addExplicit added
    simp only [ok_bind, actually]

/-- The edits of a resolved command are among the explicit ones. -/
theorem resolveEdits_edits {change : ResolvedFields}
    (ok : resolveEdits view explicit ∅ definition = .ok change) :
    change.isReplace = false ∧ ∀ f, change.edits? f = true → f ∈ explicit := by
  obtain ⟨actual, rfl, named, -⟩ := resolveEdits_spec (.self view) ok
  split
  · exact ⟨rfl, fun f edited => by cases edited⟩
  · refine ⟨rfl, fun f edited => ?_⟩
    obtain ⟨edit, found⟩ := (mem_iff_get _ f).mp (ExtTreeMap.contains_iff_mem.mp edited)
    rw [named, Option.filter_eq_some_iff] at found
    exact (mem_iff_get _ f).mpr ⟨edit, by simpa [requested, underAny] using found.1⟩

/-- A patched row and its selection have the same commands, which edit patched fields only. -/
theorem resolveFields_select {patch : WorkPatch} (complete : old.fieldCoverage = .complete)
    (regular : eq old.fields old.fields = true)
    (fields : row.fields = applyFieldEdits old.fields patch.fields)
    (patched : ∀ f, f ∈ patch.fields → f ∈ names) :
    resolveFields (old.select names) (row.select names) definition =
      resolveFields old row definition ∧
    ∀ change, resolveFields old row definition = .ok change →
      change.isReplace = false ∧ ∀ f, change.edits? f = true → f ∈ patch.fields := by
  have outside : ∀ field : String, field ∉ patch.fields →
      valueEq old.fields[field]? row.fields[field]? = true := by
    intro field missing
    rw [fields, get_applyFieldEdits, (not_mem_iff_get _ field).mp missing]
    exact eq_iff.mp regular field
  obtain ⟨edits, collected, differences⟩ :=
    @foldlM_collectEdit row ⟨old.fields, .complete⟩ (old.fields.keys ++ row.fields.keys)
      (fun f _ => get_complete _ f)
  have inside : ∀ f ∈ (old.select names).fields.keys ++ (row.select names).fields.keys,
      f ∈ names := by
    intro f member
    by_contra absent
    simp only [mem_append, ExtTreeMap.mem_keys, mem_iff_get, get_select, if_neg absent,
      reduceCtorEq, exists_false, or_self] at member
  obtain ⟨edits', collected', differences'⟩ :=
    @foldlM_collectEdit (row.select names) ⟨(old.select names).fields, .selected names ∅⟩
      ((old.select names).fields.keys ++ (row.select names).fields.keys) (fun f member => by
        rw [get_selected (inside f member), get_select, if_pos (inside f member)])
  obtain rfl : edits' = edits := by
    apply ExtTreeMap.ext_getElem?
    intro field
    rw [differences, differences']
    by_cases member : field ∈ names
    · refine if_congr ?_ (by rw [get_select, if_pos member]) rfl
      simp only [mem_append, ExtTreeMap.mem_keys, mem_iff_get, get_select, if_pos member]
    · rw [if_neg fun both => member (inside field both.1), if_neg]
      rintro ⟨-, differs⟩
      have equal := outside field fun patch => member (patched field patch)
      exact absurd (equal.symm.trans differs) (by decide)
  have edited : ∀ f, f ∈ edits' → f ∈ patch.fields := by
    intro f member
    obtain ⟨value, found⟩ := (mem_iff_get _ f).mp member
    by_contra missing
    rw [differences, if_neg] at found
    · cases found
    · rintro ⟨-, differs⟩
      exact absurd ((outside f missing).symm.trans differs) (by decide)
  rw [resolveFields, resolveFields, view_select, view_complete complete]
  simp only [ok_bind, collected, collected']
  refine ⟨resolveEdits_congr definition fun f member => ?_, fun change resolved => ?_⟩
  · rw [get_selected (patched f (edited f member)), get_complete]
  · obtain ⟨partly, within⟩ := resolveEdits_edits resolved
    exact ⟨partly, fun f named => edited f (within f named)⟩

end Views

/-! ## Commands -/

/-- The command of a row and its counterpart: a patched row is edited within the loaded names, a
whole row is replaced. -/
inductive SelectedCommand (snapshot : RecordSnapshot) (definition : CollectionDefinition)
    (names : BTreeSet String) (row row' : StoredWork) (change : ResolvedFields) : Prop
  | edited {old : StoredWork} {patch : WorkPatch} (found : snapshot.work[row.key]? = some old)
      (fields : row.fields = applyFieldEdits old.fields patch.fields)
      (patched : ∀ f, f ∈ patch.fields → f ∈ names)
      (touched : ∀ (index : String) (columns : List String),
        definition.indexes[index]? = some columns → (∃ c ∈ columns, c ∈ patch.fields) →
          ∀ c ∈ columns, c ∈ names)
      (selected : row' = row.select names) (partly : change.isReplace = false)
      (within : ∀ f, change.edits? f = true → f ∈ patch.fields)
  | whole (same : row' = row) (replaced : change = .replace row.fields)
      (fresh : snapshot.work[row.key]? = none ∨
        ∀ index ∈ definition.uniqueIndexes, ∀ columns : List String,
          definition.indexes[index]? = some columns → ∀ c ∈ columns, c ∈ names)

section Commands

variable {group : CommitGroup} {snapshot : RecordSnapshot} {schema : QueueSchema}
  {required : BTreeMap String (BTreeSet String)} {names : BTreeSet String} {row row' : StoredWork}
  (complete : ∀ (key : String) (old : StoredWork), snapshot.work[key]? = some old →
    old.fieldCoverage = .complete)
  (regular : ∀ (key : String) (old : StoredWork), snapshot.work[key]? = some old →
    Fields.eq old.fields old.fields = true)
  (listed : required[row.key]? = some names)

theorem SelectedRow.key (related : SelectedRow group snapshot schema.work names row row') :
    row'.key = row.key := by
  cases related with
  | edited _ _ _ _ _ selected => rw [selected]; rfl
  | whole same => rw [same]

include complete regular listed in
theorem resolveRow_select (related : SelectedRow group snapshot schema.work names row row') :
    resolveRow group (snapshot.select required) schema row' =
      resolveRow group snapshot schema row := by
  rw [resolveRow, resolveRow, related.key, work_select listed]
  cases related with
  | @edited old patch found kept fields patched touched selected =>
    simp only [found, Option.map_some, kept, Bool.false_eq_true, if_false]
    rw [selected, (resolveFields_select (complete _ _ found) (regular _ _ found) fields patched).1]
    rfl
  | whole same fresh =>
    subst same
    rcases fresh with absent | ⟨replaced, -⟩
    · simp only [absent, Option.map_none]
    · cases snapshot.work[row'.key]? with
      | none => rfl
      | some old => simp only [Option.map_some, replaced, if_true]

include complete regular in
theorem SelectedRow.command (related : SelectedRow group snapshot schema.work names row row')
    {change : ResolvedFields} {body : ResolvedBody}
    (resolved : resolveRow group snapshot schema row = .ok (change, body)) :
    SelectedCommand snapshot schema.work names row row' change := by
  rw [resolveRow] at resolved
  cases related with
  | @edited old patch found kept fields patched touched selected =>
    simp only [found, kept, Bool.false_eq_true, if_false] at resolved
    obtain ⟨change', fieldsOk, final⟩ := bind_eq_ok.mp resolved
    cases final
    obtain ⟨partly, within⟩ :=
      (resolveFields_select (complete _ _ found) (regular _ _ found) fields patched).2 _ fieldsOk
    exact .edited found fields patched touched selected partly within
  | whole same fresh =>
    refine .whole same ?_ (fresh.imp id And.right)
    rcases fresh with absent | ⟨replaced, -⟩
    · simp only [absent] at resolved
      cases resolved
      rfl
    · cases found : snapshot.work[row.key]? with
      | none =>
        simp only [found] at resolved
        cases resolved
        rfl
      | some old =>
        simp only [found, replaced, if_true] at resolved
        cases resolved
        rfl

variable {change : ResolvedFields}
  (command : SelectedCommand snapshot schema.work names row row' change)

include command in
theorem validateFieldWrite_select : validateFieldWrite row' change =
    validateFieldWrite row change := by
  cases command with
  | edited _ _ patched _ selected partly within =>
    cases change with
    | preserve => rfl
    | replace fields => cases partly
    | edit edits =>
      have same : ∀ entry ∈ edits.toList, row'.fields[entry.1]? = row.fields[entry.1]? := by
        rintro ⟨name, value⟩ member
        have edited : name ∈ edits :=
          (mem_iff_get _ _).mpr ⟨value, (mem_toList_iff _ name value).mp member⟩
        rw [selected, get_select,
          if_pos (patched name (within name (ExtTreeMap.contains_iff_mem.mpr edited)))]
      rw [validateFieldWrite, validateFieldWrite]
      congr 1
      rw [Bool.eq_iff_iff, any_eq_true, any_eq_true]
      refine exists_congr fun entry => and_congr_right fun member => ?_
      rw [same entry member]
  | whole same => rw [same]

theorem validateBodyWrite_select (names : BTreeSet String) (body : ResolvedBody) :
    validateBodyWrite (row.select names) body = validateBodyWrite row body := by
  cases body <;> rfl

include regular listed command in
/-- The view check of a command succeeds on the selected row when it does on the complete row. -/
theorem validateWorkWriteView_select {body : ResolvedBody}
    (viewed : validateWorkWriteView snapshot.work[row.key]? row change body = .ok ()) :
    validateWorkWriteView (snapshot.select required).work[row.key]? row' change body = .ok () := by
  obtain ⟨bodyOk, fieldsOk⟩ := check_bind_eq_ok.mp viewed
  refine check_bind_eq_ok.mpr ⟨?_, ?_⟩
  · rw [work_select listed]
    have bodies : row'.bodyLoaded = row.bodyLoaded ∧ row'.record.work.body =
      row.record.work.body := by
      cases command with
      | edited _ _ _ _ selected => rw [selected]; exact ⟨rfl, rfl⟩
      | whole same => rw [same]; exact ⟨rfl, rfl⟩
    revert bodyOk
    cases snapshot.work[row.key]? <;> cases body <;>
      simp only [validateBodyView, Option.map_some, Option.map_none, bodies]
    all_goals exact id
  · rw [work_select listed]
    cases command with
    | @edited old patch found fields patched touched selected partly within =>
      rw [found] at fieldsOk ⊢
      have unpatched : ∀ field, field ∉ names →
          valueEq old.fields[field]? row.fields[field]? = true := by
        intro field outside
        rw [fields, get_applyFieldEdits,
          (not_mem_iff_get _ field).mp fun member => outside (patched field member)]
        exact eq_iff.mp (regular _ _ found) field
      cases change with
      | replace replacement => cases partly
      | preserve =>
        simp only [validateFieldView, Option.map_some, rejectIf_eq_ok] at fieldsOk ⊢
        rw [selected, select_eq names unpatched]
        exact fieldsOk
      | edit edits =>
        have inside : ∀ f, f ∈ edits → f ∈ names := fun f member =>
          patched f (within f (ExtTreeMap.contains_iff_mem.mpr member))
        refine validateFieldView_edit_of_eq view_select ?_ ?_
        · intro f member
          rw [get_selected (inside f member), get_select, if_pos (inside f member)]
        · have same := eq_iff.mp (validateFieldView_edit fieldsOk)
          rw [eq_iff]
          intro field
          rw [selected, get_applyFieldEdits, get_select, get_select]
          by_cases member : field ∈ names
          · rw [if_pos member, if_pos member, ← get_applyFieldEdits]
            exact same field
          · have unedited : edits[field]? = none :=
              (not_mem_iff_get _ field).mp fun edited => member (inside field edited)
            rw [if_neg member, if_neg member, unedited]
            rfl
    | whole same replaced fresh =>
      subst same replaced
      cases snapshot.work[row'.key]? <;> exact fieldsOk

end Commands

/-! ## Ownership effects -/

theorem uniqueKeys_congr {message : String} {collection : Option String}
    {get get' : String → QueueResult (Option FieldValue)}
    (same : ∀ index ∈ definition.uniqueIndexes, ∀ columns : List String,
      definition.indexes[index]? = some columns → ∀ c ∈ columns, get' c = get c) :
    uniqueKeys message collection get' definition =
      uniqueKeys message collection get definition := by
  rw [uniqueKeys, uniqueKeys]
  refine congrArg (· >>= _) (mapM_congr fun index member => ?_)
  rw [uniqueKey, uniqueKey]
  split
  · rfl
  · next columns found =>
    rw [mapM_congr (same index (ExtTreeSet.mem_toList.mp member) columns found)]

section Ownership

variable {old : StoredWork} {names : BTreeSet String} {definition : CollectionDefinition}

/-- The unique tuples of a row are read off its selection. -/
theorem checkedUniqueKeys_select (collection : Option String)
    (inside : ∀ index ∈ definition.uniqueIndexes, ∀ columns : List String,
      definition.indexes[index]? = some columns → ∀ c ∈ columns, c ∈ names) :
    checkedUniqueKeys collection ⟨(old.select names).fields, .selected names ∅⟩ definition =
      checkedUniqueKeys collection ⟨old.fields, .complete⟩ definition :=
  uniqueKeys_congr fun index member columns found c among => by
    rw [get_selected (inside index member columns found c among), get_complete]

/-- The index effects of an edit are read off the selection that covers the touched indexes. -/
theorem resolveIndexEffects_select {patch : WorkPatch} {change : ResolvedFields}
    (touched : ∀ (index : String) (columns : List String),
      definition.indexes[index]? = some columns → (∃ c ∈ columns, c ∈ patch.fields) →
        ∀ c ∈ columns, c ∈ names)
    (partly : change.isReplace = false) (within : ∀ f, change.edits? f = true → f ∈ patch.fields) :
    resolveIndexEffects ⟨(old.select names).fields, .selected names ∅⟩ change definition =
      resolveIndexEffects ⟨old.fields, .complete⟩ change definition := by
  refine foldlM_congr (fun entry member effects => ?_) _
  rw [indexEffect, indexEffect]
  split
  · rfl
  · next affected =>
    have inside : ∀ c ∈ entry.2, c ∈ names := by
      refine touched entry.1 entry.2 ((mem_toList_iff _ entry.1 entry.2).mp member) ?_
      simp only [indexIsAffected, partly, Bool.false_or, Bool.not_eq_true', Bool.not_eq_false,
        any_eq_true] at affected
      obtain ⟨c, among, edited⟩ := affected
      exact ⟨c, among, within c edited⟩
    have olds : ∀ c ∈ entry.2, CheckedFields.get ⟨(old.select names).fields, .selected names ∅⟩ c =
        CheckedFields.get ⟨old.fields, .complete⟩ c := fun c among => by
      rw [get_selected (inside c among), get_complete]
    have news : ∀ c ∈ entry.2, change.after ⟨(old.select names).fields, .selected names ∅⟩ c =
        change.after ⟨old.fields, .complete⟩ c := by
      intro c among
      cases change with
      | preserve => exact olds c among
      | replace fields => rfl
      | edit edits => rw [ResolvedFields.after, ResolvedFields.after, olds c among]
    rw [mapM_congr olds, mapM_congr news]

end Ownership

/-- A delta and its counterpart: the same commands, related rows, and loaded tuples of the deleted
records. -/
structure SelectedDelta (snapshot : RecordSnapshot) (definition : CollectionDefinition)
    (required : BTreeMap String (BTreeSet String)) (delta delta' : CommitDelta) : Prop where
  fields : delta'.workFields = delta.workFields
  bodies : delta'.workBodies = delta.workBodies
  state : delta'.state = delta.state
  put : ∀ key row, workRow delta key = some row → row.key = key ∧
    ∃ row' names, workRow delta' key = some row' ∧ required[key]? = some names ∧
      ∀ change, delta.workFields[key]? = some change →
        SelectedCommand snapshot definition names row row' change
  absent : ∀ key, workRow delta key = none → workRow delta' key = none
  deleted : ∀ key ∈ delta.deletedWork, ∃ names, required[key]? = some names ∧
    ∀ index ∈ definition.uniqueIndexes, ∀ columns : List String,
      definition.indexes[index]? = some columns → ∀ c ∈ columns, c ∈ names

section Delta

variable {snapshot : RecordSnapshot} {schema : QueueSchema}
  {required : BTreeMap String (BTreeSet String)} {delta delta' : CommitDelta}
  (complete : ∀ (key : String) (old : StoredWork), snapshot.work[key]? = some old →
    old.fieldCoverage = .complete)
  (regular : ∀ (key : String) (old : StoredWork), snapshot.work[key]? = some old →
    Fields.eq old.fields old.fields = true)
  (related : SelectedDelta snapshot schema.work required delta delta')

include complete regular related in
theorem workUniqueEffect_select {before after : UniqueFieldEffects} {key : String}
    (deleted : workRow delta key = none → key ∈ delta.deletedWork)
    (ok : workUniqueEffect delta snapshot schema before key = .ok after) :
    workUniqueEffect delta' (snapshot.select required) schema before key = .ok after := by
  rw [workUniqueEffect] at ok ⊢
  cases listed : workRow delta key with
  | some row =>
    obtain ⟨rfl, row', names, listed', loaded, commands⟩ := related.put key row listed
    rw [listed] at ok
    rw [listed', related.fields, related.bodies]
    obtain ⟨change, found, ok⟩ := bind_eq_ok.mp ok
    obtain ⟨body, bodyFound, ok⟩ := bind_eq_ok.mp ok
    obtain ⟨viewed, ok⟩ := check_bind_eq_ok.mp ok
    have command := commands change (index_eq_ok.mp found)
    refine bind_eq_ok.mpr ⟨change, found, bind_eq_ok.mpr ⟨body, bodyFound, check_bind_eq_ok.mpr
      ⟨validateWorkWriteView_select regular loaded command viewed, ?_⟩⟩⟩
    rw [work_select loaded]
    cases present : snapshot.work[row.key]? with
    | none =>
      rw [present] at ok
      cases command with
      | edited found => rw [present] at found; cases found
      | whole same replaced fresh =>
        subst same
        exact ok
    | some old =>
      rw [present] at ok
      simp only [Option.map_some, view_select, view_complete (complete _ _ present), ok_bind]
        at ok ⊢
      cases command with
      | edited found fields patched touched selected partly within =>
        simp only [partly, Bool.false_eq_true, if_false] at ok ⊢
        rw [resolveIndexEffects_select touched partly within]
        exact ok
      | whole same replaced fresh =>
        subst same replaced
        have inside := fresh.resolve_left (by rw [present]; simp)
        simp only [ResolvedFields.isReplace, if_true] at ok ⊢
        rw [checkedUniqueKeys_select none inside]
        exact ok
  | none =>
    obtain ⟨names, loaded, inside⟩ := related.deleted key (deleted listed)
    rw [listed] at ok
    rw [related.absent key listed, work_select loaded]
    cases present : snapshot.work[key]? with
    | none =>
      rw [present] at ok
      exact ok
    | some old =>
      rw [present] at ok
      simp only [Option.map_some, view_select, view_complete (complete _ _ present), ok_bind]
        at ok ⊢
      rw [checkedUniqueKeys_select none inside]
      exact ok

include complete regular related in
/-- The ownership effects on the selected snapshot are those on the complete one. -/
theorem uniqueEffects_select {effects : UniqueFieldEffects} (shaped : delta.Shaped)
    (versions : delta'.versions = delta.versions) (valid : validateResolvedWrites delta' = .ok ())
    (ok : uniqueEffects delta snapshot schema = .ok effects) :
    uniqueEffects delta' (snapshot.select required) schema = .ok effects := by
  obtain ⟨-, ok⟩ := check_bind_eq_ok.mp ok
  refine check_bind_eq_ok.mpr ⟨valid, ?_⟩
  rw [versions]
  refine foldlM_ok_of_steps (fun version member before after step => ?_) ok
  obtain ⟨collection, key, number⟩ := version
  cases collection with
  | none =>
    refine workUniqueEffect_select complete regular related (fun missing => ?_) step
    refine ((shaped.workListed key).mp (mem_map.mpr ⟨_, member, rfl⟩)).resolve_left ?_
    intro put
    obtain ⟨row, among, rfl⟩ := mem_map.mp put
    rw [workRow_of_mem shaped among] at missing
    cases missing
  | some collection =>
    simp only [uniqueEffect, stateUniqueEffect, stateRow, related.state] at step ⊢
    exact step

end Delta

end QueuePlanner
