import Fireweed.QueuePlanner.Commit

/-!
# Selectively loaded rows

Loading only some fields of a row commutes with every update that patches no
other field: the update succeeds or fails as before, and what it writes is the
selection of what it would have written.
-/

namespace QueuePlanner

open List hiding map_map mem_iff_get
open BTree Checked QueueContract QueueFields Std Fields

/-- The row with only the named fields loaded. -/
def StoredWork.select (row : StoredWork) (names : BTreeSet String) : StoredWork :=
  { row with
    record := { row.record with
      work := { row.record.work with
        fields := row.fields.filter fun name _ => names.contains name } }
    fieldCoverage := .selected names ∅ }

/-- The snapshot with only the required fields of each addressed row loaded. -/
def RecordSnapshot.select (snapshot : RecordSnapshot)
    (required : BTreeMap String (BTreeSet String)) : RecordSnapshot :=
  { snapshot with
    work := snapshot.work.map fun key row =>
      match required[key]? with
      | some names => row.select names
      | none => row }

variable {patch : WorkPatch} {definition : CollectionDefinition}

section Rows

variable (row : StoredWork) (names : BTreeSet String)

theorem get_select (field : String) :
    (row.select names).fields[field]? = if field ∈ names then row.fields[field]? else none := by
  simp only [StoredWork.select, StoredWork.fields, ExtTreeMap.getElem?_filter']
  by_cases member : field ∈ names
  · rw [if_pos member]
    cases row.record.work.fields[field]? <;> simp [ExtTreeSet.contains_iff_mem.mpr member]
  · rw [if_neg member]
    have outside : names.contains field = false := by
      rw [← Bool.not_eq_true, ExtTreeSet.contains_iff_mem]
      exact member
    cases row.record.work.fields[field]? <;> simp [outside]

theorem insertMany_same {l : List String} (within : ∀ a ∈ l, a ∈ names) :
    names.insertMany l = names := by
  apply ExtTreeSet.ext_mem
  intro a
  rw [ExtTreeSet.mem_insertMany_list, contains_iff_mem]
  exact ⟨fun member => member.elim id (within a), .inl⟩

theorem patchWork_select (within : ∀ f, f ∈ patch.fields → f ∈ names) :
    patchWork (row.select names) patch = (patchWork row patch).select names := by
  have fields : applyFieldEdits (row.select names).fields patch.fields =
      ((patchWork row patch).select names).fields := by
    apply ExtTreeMap.ext_getElem?
    intro field
    rw [get_applyFieldEdits, get_select, get_select]
    simp only [patchWork, StoredWork.fields]
    rw [get_applyFieldEdits]
    by_cases member : field ∈ names
    · rw [if_pos member, if_pos member]
    · have unpatched : patch.fields[field]? = none :=
        (not_mem_iff_get _ field).mp fun patched => member (within field patched)
      rw [if_neg member, if_neg member, unpatched]
      rfl
  have coverage : names.insertMany patch.fields.keys = names :=
    insertMany_same names fun f member => within f (ExtTreeMap.mem_keys.mp member)
  simp only [StoredWork.fields] at fields
  simp only [patchWork, fields]
  simp only [StoredWork.select, coverage]

theorem expireLease_select : expireLease (row.select names) = (expireLease row).select names := by
  by_cases leased : row.record.lifecycle = .leased
  · have same : (row.select names).record.lifecycle = .leased := leased
    rw [expireLease, expireLease, if_pos leased, if_pos same]
    rfl
  · have same : (row.select names).record.lifecycle ≠ .leased := leased
    rw [expireLease, expireLease, if_neg leased, if_neg same]

theorem disposition_select (now : Int64) (schema : QueueSchema) (wanted : Disposition) :
    disposition now schema (row.select names) wanted =
      (disposition now schema row wanted).map (Option.map (StoredWork.select · names)) := by
  cases wanted with
  | retryAt time =>
    simp only [disposition]
    split <;> split <;> first | rfl | contradiction
  | retain renew =>
    cases renew with
    | none => rfl
    | some duration =>
      simp only [disposition]
      cases checkedExpiry now duration <;> rfl
  | _ => rfl

theorem dispose_select (now : Int64) (schema : QueueSchema) (wanted : Disposition) :
    dispose now schema (row.select names) wanted =
      (dispose now schema row wanted).map (Option.map (StoredWork.select · names)) := by
  rw [dispose, dispose, disposition_select]
  cases disposition now schema row wanted with
  | error e => rfl
  | ok disposed =>
    cases disposed with
    | none => rfl
    | some disposed =>
      simp only [Except.map, Option.map_some, ok_bind]
      congr 2
      split <;> split <;> first | rfl | contradiction

section

variable {a b : StoredWork}
  (same : ∀ field, field ∉ names → valueEq a.fields[field]? b.fields[field]? = true)

include same

/-- Selecting the fields that may differ does not change the comparison of two sets of fields. -/
theorem select_eq :
    eq (a.select names).fields (b.select names).fields = eq a.fields b.fields := by
  rw [Bool.eq_iff_iff, eq_iff, eq_iff]
  refine forall_congr' fun field => ?_
  rw [get_select, get_select]
  by_cases member : field ∈ names
  · rw [if_pos member, if_pos member]
  · rw [if_neg member, if_neg member]
    exact iff_of_true rfl (same field member)

theorem record_eq_select :
    (a.select names).record.eq (b.select names).record = a.record.eq b.record := by
  have fields := select_eq names same
  simp only [StoredWork.fields] at fields
  simp only [WorkRecord.eq, NewWork.eq, fields]
  rfl

end

/-- The row an accepted administrative change makes of a patched row. -/
def administered (before patched : StoredWork) (desired : Lifecycle)
    (leaseGuard : AdministrativeLeaseGuard) (now : Int64) : StoredWork :=
  let stored := { patched with record := { patched.record with lifecycle := desired } }
  let stored :=
    if desired ≠ .leased ∨ leaseGuard = .invalidateActive then clearLease stored else stored
  if desired = .pending ∧ (before.record.lifecycle ≠ .pending ∨
      before.record.work.availableAt ≠ stored.record.work.availableAt) then
    { stored with record := { stored.record with
        eligibleSince := max now stored.record.work.availableAt } }
  else stored

theorem applyAdministrativeUpdate_eq (patch : WorkPatch) (lifecycle : AdministrativeLifecycle)
    (leaseGuard : AdministrativeLeaseGuard) (now : Int64) :
    applyAdministrativeUpdate row patch lifecycle leaseGuard now = (do
      checkGuard leaseGuard (row.active now)
      rejectIf (decide (row.record.lifecycle = .completed ∨ row.record.lifecycle = .failed) &&
        decide (lifecycle = .completed ∨ lifecycle = .failed)) .terminal
      rejectIf (row.active now &&
        decide (desiredLifecycle row.record.lifecycle lifecycle leaseGuard ≠ .leased) &&
        decide (leaseGuard = .rejectActive)) .leased
      let after := administered row (patchWork row patch)
        (desiredLifecycle row.record.lifecycle lifecycle leaseGuard) leaseGuard now
      .ok (!after.record.eq row.record || after.leaseHash != row.leaseHash, after)) :=
  rfl

theorem administered_select (patched : StoredWork) (desired : Lifecycle)
    (leaseGuard : AdministrativeLeaseGuard) (now : Int64) :
    administered (row.select names) (patched.select names) desired leaseGuard now =
      (administered row patched desired leaseGuard now).select names := by
  simp only [administered, clearLease, StoredWork.select]
  split_ifs <;> rfl

theorem administered_fields (patched : StoredWork) (desired : Lifecycle)
    (leaseGuard : AdministrativeLeaseGuard) (now : Int64) :
    (administered row patched desired leaseGuard now).fields = patched.fields := by
  simp only [administered]
  split_ifs <;> rfl

theorem applyAdministrativeUpdate_select (lifecycle : AdministrativeLifecycle)
    (leaseGuard : AdministrativeLeaseGuard) (now : Int64)
    (within : ∀ f, f ∈ patch.fields → f ∈ names) (regular : eq row.fields row.fields = true) :
    applyAdministrativeUpdate (row.select names) patch lifecycle leaseGuard now =
      (applyAdministrativeUpdate row patch lifecycle leaseGuard now).map fun result =>
        (result.1, result.2.select names) := by
  have unpatched : ∀ field, field ∉ names →
      valueEq (patchWork row patch).fields[field]? row.fields[field]? = true := by
    intro field outside
    have missing : patch.fields[field]? = none :=
      (not_mem_iff_get _ field).mp fun patched => outside (within field patched)
    simp only [patchWork, StoredWork.fields]
    rw [get_applyFieldEdits, missing]
    exact eq_iff.mp regular field
  rw [applyAdministrativeUpdate_eq, applyAdministrativeUpdate_eq, patchWork_select row names within]
  simp only [except_map_bind]
  refine congrArg _ (funext fun _ => congrArg _ (funext fun _ => congrArg _ (funext fun _ => ?_)))
  have selected : administered (row.select names) ((patchWork row patch).select names)
      (desiredLifecycle (row.select names).record.lifecycle lifecycle leaseGuard) leaseGuard now =
      (administered row (patchWork row patch)
        (desiredLifecycle row.record.lifecycle lifecycle leaseGuard) leaseGuard now).select names :=
    administered_select row names _ _ leaseGuard now
  have unchanged : ∀ desired,
      ((administered row (patchWork row patch) desired leaseGuard now).select names).record.eq
        (row.select names).record =
      (administered row (patchWork row patch) desired leaseGuard now).record.eq row.record :=
    fun desired => record_eq_select names (by rw [administered_fields]; exact unpatched)
  simp only [selected, unchanged]
  rfl

end Rows

/-! ## Updates of a selected record -/

def Cell.select (cell : Cell) (names : BTreeSet String) : Cell :=
  { cell with work := cell.work.map (StoredWork.select · names) }

/-- The effect with only the named fields of a written row. -/
def Effect.select (names : BTreeSet String) (effect : Effect) : Effect :=
  match effect.change with
  | .putWork row => { effect with change := .putWork (row.select names) }
  | _ => effect

/-- What an update writes on a selected record: a whole row stays whole. -/
def GroupUpdate.selected (u : GroupUpdate) (names : BTreeSet String) (effect : Effect) : Effect :=
  if u.whole?.isSome then effect else effect.select names

open GroupUpdate

section Updates

variable [Sha256] (now : Int64) (schema : QueueSchema) {cell : Cell} {names : BTreeSet String}
  (sequence : UInt64)

theorem claimedEffect_select {u : ClaimedUpdate} (within : ∀ f, f ∈ u.patch.fields → f ∈ names) :
    claimedEffect now schema (cell.select names) u =
      (claimedEffect now schema cell u).map (Option.map (Effect.select names)) := by
  cases found : cell.work with
  | none => simp [claimedEffect, Cell.select, found, require, Except.map]
  | some stored =>
    simp only [claimedEffect, Cell.select, found, Option.map_some, require, ok_bind,
      except_map_bind, patchWork_select stored names within]
    refine congrArg _ (funext fun _ => congrArg _ (funext fun _ => ?_))
    split
    · rfl
    · simp only [except_map_bind]
      refine congrArg _ (funext fun version => ?_)
      have disposed := dispose_select ((patchWork stored u.patch).withVersion version) names now
        schema u.disposition
      have commute : ((patchWork stored u.patch).select names).withVersion version =
        ((patchWork stored u.patch).withVersion version).select names := rfl
      rw [commute, disposed]
      cases dispose now schema ((patchWork stored u.patch).withVersion version) u.disposition with
      | error e => rfl
      | ok row => cases row <;> rfl

omit [Sha256] in
theorem unclaimedEffect_select {u : UnclaimedUpdate}
    (within : ∀ p, (unclaimed u).patch? = some p → ∀ f, f ∈ p.fields → f ∈ names)
    (regular : ∀ stored, cell.work = some stored → eq stored.fields stored.fields = true) :
    unclaimedEffect now (cell.select names) sequence u =
      (unclaimedEffect now cell sequence u).map fun result =>
        ((unclaimed u).selected names result.1, result.2) := by
  cases found : cell.work with
  | none => simp [unclaimedEffect, Cell.select, found, require, Except.map]
  | some stored =>
    simp only [unclaimedEffect, Cell.select, found, Option.map_some, require, ok_bind,
      except_map_bind]
    refine congrArg _ (funext fun _ => ?_)
    cases change : u.change with
    | administrative patch lifecycle leaseGuard =>
      have inside := within patch (by simp [patch?, change])
      simp only [applyAdministrativeUpdate_select stored names lifecycle leaseGuard now inside
        (regular stored found), except_map_bind]
      cases applyAdministrativeUpdate stored patch lifecycle leaseGuard now with
      | error e => rfl
      | ok result =>
        simp only [Except.map, ok_bind]
        refine congrArg _ (funext fun version => ?_)
        simp only [selected, whole?, change]
        rfl
    | patch patch =>
      have inside := within patch (by simp [patch?, change])
      simp only [except_map_bind]
      refine congrArg _ (funext fun _ => congrArg _ (funext fun version => ?_))
      rw [expireLease_select, patchWork_select _ names inside]
      simp only [selected, whole?, change]
      rfl
    | replace work =>
      simp only [except_map_bind]
      refine congrArg _ (funext fun _ => congrArg _ (funext fun version => ?_))
      have same : (stored.select names).record.lifecycle = stored.record.lifecycle := rfl
      rw [same]
      cases stored.record.lifecycle with
      | pending =>
        simp only [except_map_bind]
        refine congrArg _ (funext fun _ => congrArg _ (funext fun next => ?_))
        simp [selected, whole?, change, Except.map]
      | _ => rfl
    | delete =>
      simp only [except_map_bind]
      refine congrArg _ (funext fun _ => congrArg _ (funext fun version => ?_))
      simp only [selected, whole?, change]
      rfl

/-- An update on a selected record succeeds or fails as on the whole record, and writes the
selection of what it writes there. -/
theorem effect_select {u : GroupUpdate}
    (within : ∀ p, u.patch? = some p → ∀ f, f ∈ p.fields → f ∈ names)
    (regular : ∀ stored, cell.work = some stored → eq stored.fields stored.fields = true) :
    u.effect now schema (cell.select names) sequence =
      (u.effect now schema cell sequence).map fun result =>
        (result.1.map (u.selected names), result.2) := by
  cases u with
  | claimed u =>
    simp only [effect, claimedEffect_select now schema (within u.patch rfl), map_map]
    rfl
  | state u =>
    have same : stateEffect (cell.select names) u = stateEffect cell u := rfl
    simp only [effect, map_map, same]
    cases accepted : stateEffect cell u with
    | error e => rfl
    | ok effect =>
      have outcome : Outcome now schema cell sequence (.state u) effect sequence :=
        stateEffect_outcome accepted
      cases outcome <;> rfl
  | unclaimed u =>
    simp only [effect, unclaimedEffect_select now sequence within regular, map_map]
    rfl
  | insert w =>
    simp only [effect, map_map, insertEffect, Cell.select, Option.isSome_map, except_map_bind]
    refine congrArg _ (funext fun _ => congrArg _ (funext fun _ => congrArg _ (funext fun _ => ?_)))
    rfl

end Updates

/-! ## The read closure -/

/-- Whether planning an update reads the old unique tuples of its record. -/
def GroupUpdate.needsUnique : GroupUpdate → Bool
  | .claimed u => u.disposition = .delete
  | .state _ => false
  | .unclaimed u =>
    match u.change with
    | .replace _ => true
    | .delete => true
    | _ => false
  | .insert _ => true

/-- The names cover what planning an update reads. -/
structure Reads (definition : CollectionDefinition) (u : GroupUpdate) (names : BTreeSet String) :
    Prop where
  patched : ∀ p, u.patch? = some p → ∀ f, f ∈ p.fields → f ∈ names
  touched : ∀ p, u.patch? = some p → ∀ (index : String) (columns : List String),
    definition.indexes[index]? = some columns → (∃ c ∈ columns, c ∈ p.fields) →
      ∀ c ∈ columns, c ∈ names
  unique : u.needsUnique = true → ∀ index ∈ definition.uniqueIndexes, ∀ columns : List String,
    definition.indexes[index]? = some columns → ∀ c ∈ columns, c ∈ names

variable {columns : List String} {schema : QueueSchema}

theorem uniqueColumns_spec {unique : List String} (ok : uniqueColumns schema = .ok unique)
    {index : String} (listed : index ∈ schema.work.uniqueIndexes)
    (found : schema.work.indexes[index]? = some columns) {c : String} (member : c ∈ columns) :
    c ∈ unique := by
  obtain ⟨lists, collected, ok⟩ := bind_eq_ok.mp ok
  cases ok
  rw [mapM_eq_ok] at collected
  obtain ⟨l, among, here⟩ := forall₂_mem_left collected (ExtTreeSet.mem_toList.mpr listed)
  rw [found] at here
  cases here
  exact mem_flatten.mpr ⟨columns, among, member⟩

theorem mem_patchNames {f : String} (member : f ∈ patch.fields) : f ∈ patchNames definition patch :=
  mem_append_left _ (ExtTreeMap.mem_keys.mpr member)

theorem mem_patchNames_of_touched {index c : String}
    (found : definition.indexes[index]? = some columns) (touched : ∃ c ∈ columns, c ∈ patch.fields)
    (member : c ∈ columns) : c ∈ patchNames definition patch := by
  obtain ⟨d, among, patched⟩ := touched
  refine mem_append_right _ (mem_flatten.mpr ⟨columns, mem_filter.mpr ⟨?_, ?_⟩,
    member⟩)
  · exact mem_map.mpr ⟨(index, columns), (mem_toList_iff _ index columns).mpr found, rfl⟩
  · exact any_eq_true.mpr ⟨d, among, ExtTreeMap.contains_iff_mem.mpr patched⟩

theorem get_addNames (output : BTreeMap String (BTreeSet String)) (entry : String × List String)
    (key : String) :
    (addNames output entry)[key]? =
      if entry.1 = key then some ((output[key]?.getD ∅).insertMany entry.2) else output[key]? := by
  rw [addNames, get_insert]
  by_cases here : entry.1 = key
  · rw [if_pos here, if_pos here, here]
  · rw [if_neg here, if_neg here]

/-- Names that were added stay, and every entry's names are added. -/
theorem foldl_addNames (entries : List (String × List String))
    (output : BTreeMap String (BTreeSet String)) :
    (∀ (key : String) (names : BTreeSet String), output[key]? = some names →
      ∃ all, (entries.foldl addNames output)[key]? = some all ∧ ∀ a ∈ names, a ∈ all) ∧
    ∀ entry ∈ entries, ∃ all, (entries.foldl addNames output)[entry.1]? = some all ∧
      ∀ a ∈ entry.2, a ∈ all := by
  induction entries generalizing output with
  | nil => exact ⟨fun key names found => ⟨names, found, fun a member => member⟩, by simp⟩
  | cons entry rest ih =>
    obtain ⟨kept, added⟩ := ih (addNames output entry)
    have here := get_addNames output entry
    constructor
    · intro key names found
      by_cases same : entry.1 = key
      · obtain ⟨all, result, within⟩ := kept key _ ((here key).trans (if_pos same))
        refine ⟨all, result, fun a member => within a ?_⟩
        rw [found, ExtTreeSet.mem_insertMany_list]
        exact .inl member
      · exact kept key names ((here key).trans ((if_neg same).trans found))
    · intro other member
      rcases mem_cons.mp member with rfl | later
      · obtain ⟨all, result, within⟩ := kept other.1 _ ((here other.1).trans (if_pos rfl))
        refine ⟨all, result, fun a member => within a ?_⟩
        rw [ExtTreeSet.mem_insertMany_list, contains_iff_mem]
        exact .inr member
      · exact added other later

/-- The read closure has an entry for every work update, which covers what it reads. -/
theorem requiredWorkFieldsByKey_reads {group : CommitGroup}
    {required : BTreeMap String (BTreeSet String)}
    (ok : requiredWorkFieldsByKey group schema = .ok required) {u : GroupUpdate}
    (member : u ∈ updates group) (work : u.identity.collection = none) :
    ∃ names, required[u.identity.key]? = some names ∧ Reads schema.work u names := by
  obtain ⟨unique, columns, ok⟩ := bind_eq_ok.mp ok
  cases ok
  have added := (foldl_addNames ((group.claimedUpdates.map fun u =>
    (u.key, claimedNames schema.work unique u)) ++ (group.workUpdates.map fun u =>
    (u.key, unclaimedNames schema.work unique u)) ++ (group.workInserts.map fun w =>
    (w.key, unique))) ∅).2
  simp only [updates, mem_append, mem_map] at member
  rcases member with ((⟨c, listed, rfl⟩ | ⟨st, listed, rfl⟩) | ⟨w, listed, rfl⟩) | ⟨i, listed, rfl⟩
  · obtain ⟨names, found, within⟩ := added (c.key, claimedNames schema.work unique c)
      (by simp only [mem_append, mem_map]; exact .inl (.inl ⟨c, listed, rfl⟩))
    refine ⟨names, found, ?_, ?_, ?_⟩
    · rintro p ⟨⟩ f patched
      exact within f (mem_append_right _ (mem_patchNames patched))
    · rintro p ⟨⟩ index columns declared touched d among
      exact within d (mem_append_right _ (mem_patchNames_of_touched declared touched among))
    · intro needs index listed columns' declared d among
      have deleted : c.disposition = .delete := by simpa [needsUnique] using needs
      refine within d (mem_append_left _ ?_)
      rw [if_pos deleted]
      exact uniqueColumns_spec columns listed declared among
  · cases work
  · obtain ⟨names, found, within⟩ := added (w.key, unclaimedNames schema.work unique w)
      (by simp only [mem_append, mem_map]; exact .inl (.inr ⟨w, listed, rfl⟩))
    simp only [unclaimedNames] at within
    refine ⟨names, found, ?_, ?_, ?_⟩
    · intro p patch f patched
      cases change : w.change <;> simp only [patch?, change, Option.some.injEq,
        reduceCtorEq] at patch within
      all_goals
        subst patch
        exact within f (mem_patchNames patched)
    · intro p patch index columns declared touched d among
      cases change : w.change <;> simp only [patch?, change, Option.some.injEq,
        reduceCtorEq] at patch within
      all_goals
        subst patch
        exact within d (mem_patchNames_of_touched declared touched among)
    · intro needs index listed columns' declared d among
      cases change : w.change <;> simp only [needsUnique, change, Bool.false_eq_true]
        at needs within
      all_goals exact within d (uniqueColumns_spec columns listed declared among)
  · obtain ⟨names, found, within⟩ := added (i.key, unique)
      (by simp only [mem_append, mem_map]; exact .inr ⟨i, listed, rfl⟩)
    refine ⟨names, found, by simp [patch?], by simp [patch?], ?_⟩
    intro _ index listed columns' declared d among
    exact within d (uniqueColumns_spec columns listed declared among)

end QueuePlanner
