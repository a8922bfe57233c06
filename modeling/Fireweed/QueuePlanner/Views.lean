import Fireweed.QueuePlanner.Outcomes

/-!
# Commands against views

A command that passes the view check, applied to the old row, gives the new row
up to the equality of field values.
-/

namespace QueuePlanner

open BTree Checked List QueueContract QueueFields Std

/-- Two rows that the source's comparisons cannot tell apart, coverage aside. -/
structure SameRow (a b : StoredWork) : Prop where
  record : a.record.eq b.record = true
  hash : a.leaseHash = b.leaseHash
  loaded : a.bodyLoaded = b.bodyLoaded

variable {view : CheckedFields} {fields : Fields} {edit : String × Option FieldValue}
  {row : StoredWork} {edits : FieldEdits} {old : Option StoredWork} {change : ResolvedFields}

theorem view_eq_ok {stored : StoredWork} (ok : stored.view = .ok view) :
    view = ⟨stored.fields, stored.fieldCoverage⟩ := by
  obtain ⟨-, final⟩ := check_bind_eq_ok.mp ok
  cases final
  rfl

/-- A view answers with the stored value, or proves the absence. -/
theorem get_eq_ok {field : String} {value : Option FieldValue} (ok : view.get field = .ok value) :
    view.fields[field]? = value := by
  rw [CheckedFields.get] at ok
  split at ok
  · next found =>
    cases ok
    exact found
  · next missing =>
    split at ok
    · cases ok
      exact missing
    · cases ok

theorem size_applyEdit (fields : Fields) (edit : String × Option FieldValue) :
    (applyEdit fields edit).size =
      if fields[edit.1]?.isNone && edit.2.isSome then fields.size + 1
      else if fields[edit.1]?.isSome && edit.2.isNone then fields.size - 1
      else fields.size := by
  obtain ⟨name, value⟩ := edit
  cases present : fields[name]? with
  | some old =>
    have member : name ∈ fields := (mem_iff_get fields name).mpr ⟨old, present⟩
    cases value with
    | some v => simp [applyEdit, ExtTreeMap.size_insert, member]
    | none => simp [applyEdit, ExtTreeMap.size_erase, member]
  | none =>
    have absent : name ∉ fields := (not_mem_iff_get fields name).mpr present
    cases value with
    | some v => simp [applyEdit, ExtTreeMap.size_insert, absent]
    | none => simp [applyEdit, ExtTreeMap.size_erase, absent]

theorem countEdit_eq_ok {n m : Nat} (ok : countEdit view fields n edit = .ok m) :
    valueEq fields[edit.1]? edit.2 = true ∧
      m = if view.fields[edit.1]?.isNone && edit.2.isSome then n + 1
        else if view.fields[edit.1]?.isSome && edit.2.isNone then n - 1 else n := by
  obtain ⟨previous, got, ok⟩ := bind_eq_ok.mp ok
  obtain ⟨-, ok⟩ := check_bind_eq_ok.mp ok
  obtain ⟨shown, ok⟩ := check_bind_eq_ok.mp ok
  rw [get_eq_ok got]
  refine ⟨by simpa using shown, ?_⟩
  cases ok
  cases previous <;> cases edit.2 <;> rfl

theorem foldl_applyEdit_other {seen : List (String × Option FieldValue)} {name : String}
    (distinct : (seen.map Prod.fst).Nodup) (absent : name ∉ seen.map Prod.fst) :
    (seen.foldl applyEdit fields)[name]? = fields[name]? := by
  rw [get_foldl_applyEdit _ _ distinct]
  have missing : seen.find? (fun other => other.1 = name) = none := by
    rw [find?_eq_none]
    intro other member same
    exact absent (of_decide_eq_true same ▸ mem_map_of_mem member)
  simp [missing]

theorem foldlM_countEdit {edits : List (String × Option FieldValue)} {n : Nat}
    (distinct : (edits.map Prod.fst).Nodup)
    (ok : edits.foldlM (countEdit view fields) view.fields.size = .ok n) :
    n = (edits.foldl applyEdit view.fields).size ∧
      ∀ edit ∈ edits, valueEq fields[edit.1]? edit.2 = true := by
  -- The count follows the size of the partially edited map; names are edited once.
  refine foldlM_invariant (P := fun seen n => (seen.map Prod.fst).Nodup →
    n = (seen.foldl applyEdit view.fields).size ∧
      ∀ edit ∈ seen, valueEq fields[edit.1]? edit.2 = true) (by simp) ?_ ok distinct
  intro seen edit n m holds step distinct
  rw [map_append, nodup_append] at distinct
  obtain ⟨count, shown⟩ := holds distinct.1
  obtain ⟨here, next⟩ := countEdit_eq_ok step
  have untouched : (seen.foldl applyEdit view.fields)[edit.1]? = view.fields[edit.1]? :=
    foldl_applyEdit_other distinct.1 fun member =>
      distinct.2.2 edit.1 member edit.1 (by simp) rfl
  constructor
  · rw [foldl_append, foldl_cons, foldl_nil, size_applyEdit, untouched, ← count]
    exact next
  · exact forall_mem_snoc shown here

theorem valueEq_isSome {a b : Option FieldValue} (equal : valueEq a b = true) :
    a.isSome = b.isSome := by
  cases a <;> cases b <;> simp_all [valueEq, optionEq]

/-- An edit that passes the view check gives the fields of the new row. -/
theorem validateFieldView_edit {old : StoredWork}
    (ok : validateFieldView (some old) row (.edit edits) = .ok ()) :
    Fields.eq (applyFieldEdits old.fields edits) row.fields = true := by
  obtain ⟨view, viewed, ok⟩ := bind_eq_ok.mp ok
  obtain rfl := view_eq_ok viewed
  obtain ⟨expected, counted, ok⟩ := bind_eq_ok.mp ok
  obtain ⟨count, shown⟩ := foldlM_countEdit (keys_toList_nodup edits) counted
  simp only [rejectIf_eq_ok, Bool.or_eq_false_iff, bne_eq_false_iff_eq, any_eq_false,
    Bool.and_eq_true, Bool.not_eq_true', not_and, Bool.not_eq_false] at ok
  obtain ⟨size, kept⟩ := ok
  have present : ∀ (field : String) (value : FieldValue),
      (applyFieldEdits old.fields edits)[field]? = some value →
      valueEq (some value) row.fields[field]? = true := by
    intro field value found
    rw [get_applyFieldEdits] at found
    rw [valueEq_symm]
    cases edited : edits[field]? with
    | some edit =>
      rw [edited, Option.getD_some] at found
      rw [← found]
      exact shown (field, edit) ((mem_toList_iff edits field edit).mpr edited)
    | none =>
      rw [edited, Option.getD_none] at found
      have outside : edits.contains field = false := by
        rw [ExtTreeMap.contains_eq_isSome_getElem?, edited, Option.isSome_none]
      exact kept (field, value) ((mem_toList_iff _ field value).mpr found) outside
  have domain := same_domain_of_size (applyFieldEdits old.fields edits) row.fields
    (count.symm.trans size) fun field member => by
      obtain ⟨value, found⟩ := (mem_iff_get _ field).mp member
      have := valueEq_isSome (present field value found)
      rw [ExtTreeMap.mem_iff_isSome_getElem?, ← this, Option.isSome_some]
  rw [Fields.eq_iff]
  intro field
  cases found : (applyFieldEdits old.fields edits)[field]? with
  | some value => exact present field value found
  | none =>
    have absent : field ∉ row.fields := by
      rw [domain, not_mem_iff_get]
      exact found
    rw [(not_mem_iff_get _ field).mp absent]
    rfl

theorem countEdit_of_shown {n : Nat} {previous : Option FieldValue}
    (got : view.get edit.1 = .ok previous) (shown : valueEq fields[edit.1]? edit.2 = true)
    (room : previous.isSome = true → n ≠ 0) :
    countEdit view fields n edit = .ok (if previous.isNone && edit.2.isSome then n + 1
      else if previous.isSome && edit.2.isNone then n - 1 else n) := by
  obtain ⟨name, value⟩ := edit
  simp only [countEdit, got, ok_bind]
  cases previous <;> cases value <;> simp_all [rejectIf]

/-- The view check accepts every edit that gives the fields of the new row. -/
theorem validateFieldView_edit_of_eq {old : StoredWork} (viewed : old.view = .ok view)
    (answers : ∀ f, f ∈ edits → view.get f = .ok old.fields[f]?)
    (same : Fields.eq (applyFieldEdits old.fields edits) row.fields = true) :
    validateFieldView (some old) row (.edit edits) = .ok () := by
  have equal := Fields.eq_iff.mp same
  obtain ⟨count, counted, size⟩ := foldlM_total (f := countEdit view row.fields)
    (l := edits.toList) (s := old.fields.size)
    (P := fun seen n => n = (seen.foldl applyEdit old.fields).size) rfl (by
      rintro seen ⟨name, value⟩ rest n split rfl
      have distinct := keys_toList_nodup edits
      rw [split, map_append, nodup_append] at distinct
      have edit : edits[name]? = some value := by
        rw [← mem_toList_iff, split]
        simp
      have untouched : (seen.foldl applyEdit old.fields)[name]? = old.fields[name]? :=
        foldl_applyEdit_other distinct.1 fun member =>
          distinct.2.2 name member name (by simp) rfl
      have shown : valueEq row.fields[name]? value = true := by
        have here := equal name
        rw [get_applyFieldEdits, edit, Option.getD_some] at here
        rwa [valueEq_symm]
      have room : old.fields[name]?.isSome = true →
          (seen.foldl applyEdit old.fields).size ≠ 0 := by
        intro present empty
        rw [← untouched, ExtTreeMap.eq_empty_iff_size_eq_zero.mpr empty] at present
        simp at present
      refine ⟨_, countEdit_of_shown (answers name ((mem_iff_get _ name).mpr ⟨value, edit⟩)) shown
        room, ?_⟩
      rw [foldl_append, foldl_cons, foldl_nil, size_applyEdit, untouched])
  have total : (applyFieldEdits old.fields edits).size = row.fields.size := by
    have lengths := ((mapEq_forall₂ _ _ _).mp same).length_eq
    simpa using lengths
  refine bind_eq_ok.mpr ⟨view, viewed, bind_eq_ok.mpr ⟨count, counted, ?_⟩⟩
  rw [rejectIf_eq_ok, Bool.or_eq_false_iff, bne_eq_false_iff_eq, any_eq_false]
  refine ⟨size.trans total, ?_⟩
  rintro ⟨name, value⟩ member
  have stored := (mem_toList_iff _ name value).mp member
  simp only [Bool.and_eq_true, Bool.not_eq_true', not_and, Bool.not_eq_false]
  intro unedited
  rw [ExtTreeMap.contains_eq_isSome_getElem?, Option.isSome_eq_false_iff,
    Option.isNone_iff_eq_none] at unedited
  have here := equal name
  rw [get_applyFieldEdits, unedited, Option.getD_none, stored] at here
  rwa [valueEq_symm]

theorem validateFieldView_sound (ok : validateFieldView old row change = .ok ()) :
    Fields.eq (change.apply (old.elim ∅ StoredWork.fields)) row.fields = true := by
  cases change with
  | replace replacement =>
    cases old <;> simpa [validateFieldView, ResolvedFields.apply] using ok
  | preserve =>
    cases old with
    | none => simp [validateFieldView] at ok
    | some old => simpa [validateFieldView, ResolvedFields.apply] using ok
  | edit edits =>
    cases old with
    | none => simp [validateFieldView] at ok
    | some old => exact validateFieldView_edit ok

theorem validateBodyView_sound {change : ResolvedBody}
    (ok : validateBodyView old row change = .ok ()) :
    change.applyToView (old.elim row.record.work.body fun o => o.record.work.body)
      (old.elim row.bodyLoaded StoredWork.bodyLoaded) = (row.record.work.body, row.bodyLoaded) := by
  cases change with
  | replace body =>
    cases old <;> simp_all [validateBodyView, ResolvedBody.applyToView]
  | preserve =>
    cases old with
    | none => simp [validateBodyView] at ok
    | some old =>
      simp only [validateBodyView, rejectIf_eq_ok, Bool.not_eq_false', Bool.and_eq_true,
        beq_iff_eq] at ok
      simp [ResolvedBody.applyToView, ok]

/-- A checked command, merged into the old row, is the row of the delta. -/
theorem mergeRow_same {body : ResolvedBody}
    (ok : validateWorkWriteView old row change body = .ok ()) :
    SameRow (mergeRow old row change body) row := by
  obtain ⟨bodyOk, fieldsOk⟩ := check_bind_eq_ok.mp ok
  have fields := validateFieldView_sound fieldsOk
  have bytes := validateBodyView_sound bodyOk
  constructor
  · simp only [WorkRecord.eq, NewWork.eq, mergeRow, applyToView, bytes]
    simpa [StoredWork.fields] using fields
  · rfl
  · simp [mergeRow, bytes]

/-- What `validateResolvedWrites` checks: every row has one pair of commands, which it shows. -/
structure WritesResolved (delta : CommitDelta) : Prop where
  distinct : (delta.work.map StoredWork.key).Nodup
  fields : ∀ key, key ∈ delta.workFields ↔ key ∈ delta.work.map StoredWork.key
  bodies : ∀ key, key ∈ delta.workBodies ↔ key ∈ delta.work.map StoredWork.key
  checked : ∀ row ∈ delta.work, ∃ change body, delta.workFields[row.key]? = some change ∧
    delta.workBodies[row.key]? = some body ∧ validateBodyWrite row body = .ok () ∧
    validateFieldWrite row change = .ok ()

theorem index_eq_ok {κ ν : Type} [Ord κ] [TransOrd κ] {m : BTreeMap κ ν} {k : κ} {v : ν} :
    index m k = .ok v ↔ m[k]? = some v := by
  rw [index]
  cases m[k]? <;> simp

theorem validateResolvedWrites_eq_ok {delta : CommitDelta} :
    validateResolvedWrites delta = .ok () ↔ WritesResolved delta := by
  have keyed : ∀ {ν : Type} (m : BTreeMap String ν),
      ((delta.work.any fun row => !m.contains row.key) = false ↔
        ∀ key ∈ delta.work.map StoredWork.key, key ∈ m) := by
    intro ν m
    simp [any_eq_false, ExtTreeMap.contains_iff_mem]
  have length : delta.work.length = (delta.work.map StoredWork.key).length := by simp
  have loop : (forM delta.work fun row => do
      let body ← index delta.workBodies row.key
      validateBodyWrite row body
      let change ← index delta.workFields row.key
      validateFieldWrite row change) = (.ok () : QueueResult Unit) ↔
      ∀ row ∈ delta.work, ∃ change body, delta.workFields[row.key]? = some change ∧
        delta.workBodies[row.key]? = some body ∧ validateBodyWrite row body = .ok () ∧
        validateFieldWrite row change = .ok () := by
    rw [forM_eq_ok]
    refine forall_congr' fun row => imp_congr_right fun _ => ?_
    constructor
    · intro ok
      obtain ⟨body, found, ok⟩ := bind_eq_ok.mp ok
      obtain ⟨shown, ok⟩ := check_bind_eq_ok.mp ok
      obtain ⟨change, present, ok⟩ := bind_eq_ok.mp ok
      exact ⟨change, body, index_eq_ok.mp present, index_eq_ok.mp found, shown, ok⟩
    · rintro ⟨change, body, present, found, shown, ok⟩
      exact bind_eq_ok.mpr ⟨body, index_eq_ok.mpr found, check_bind_eq_ok.mpr ⟨shown,
        bind_eq_ok.mpr ⟨change, index_eq_ok.mpr present, ok⟩⟩⟩
  rw [validateResolvedWrites, check_bind_eq_ok, rejectIf_eq_ok, loop]
  simp only [Bool.or_eq_false_iff, bne_eq_false_iff_eq, keyed, length]
  rw [size_setOfList_eq_length]
  constructor
  · rintro ⟨⟨⟨⟨⟨bodySize, bodies⟩, distinct⟩, fieldSize⟩, fields⟩, checked⟩
    exact ⟨distinct, (size_eq_length_iff _ distinct).mp ⟨fieldSize, fields⟩,
      (size_eq_length_iff _ distinct).mp ⟨bodySize, bodies⟩, checked⟩
  · rintro ⟨distinct, fields, bodies, checked⟩
    obtain ⟨fieldSize, fields⟩ := (size_eq_length_iff _ distinct).mpr fields
    obtain ⟨bodySize, bodies⟩ := (size_eq_length_iff _ distinct).mpr bodies
    exact ⟨⟨⟨⟨⟨bodySize, bodies⟩, distinct⟩, fieldSize⟩, fields⟩, checked⟩

end QueuePlanner
