import Fireweed.QueueFields
import Fireweed.Postcard.Unambiguous
import Fireweed.QueueContract.Admission

/-!
# Exactness of resolved edits

A request removes the fields under some prefixes and then performs explicit edits.
Resolution turns it into a command that names single fields, computed from a
partial view of the bag. What the command does to the complete bag is compared
here with the request itself, field by field and, for floats, bit by bit.

Resolution drops an edit whose value is equal to the old one. Equality of floats
identifies the two zeros, so an edit that only changes the sign of a zero is lost.
-/

namespace QueueFields

open BTree Checked List Postcard QueueContract QueueIndex Std

/-! ## What the request asks for -/

def underAny (prefixes : List String) (field : String) : Bool := prefixes.any (startsWith field)

def withoutPrefixes (bag : Fields) (prefixes : BTreeSet String) : Fields :=
  bag.filter fun field _ => !underAny prefixes.toList field

/-- Prefix removal, and then the explicit edits. -/
def performEdits (bag : Fields) (explicit : FieldEdits) (prefixes : BTreeSet String) : Fields :=
  applyFieldEdits (withoutPrefixes bag prefixes) explicit

theorem get_performEdits (bag : Fields) (explicit : FieldEdits) (prefixes : BTreeSet String)
    (field : String) :
    (performEdits bag explicit prefixes)[field]? =
      explicit[field]?.getD (if underAny prefixes.toList field then none else bag[field]?) := by
  rw [performEdits, get_applyFieldEdits, withoutPrefixes, ExtTreeMap.getElem?_filter']
  congr 1
  cases bag[field]? <;> cases underAny prefixes.toList field <;> rfl

def storedBytes (bag : Fields) (field : String) : Option (List UInt8) :=
  bag[field]?.map serialize

/-- A view of the bag: what it shows is there, and what it covers is all there is. -/
structure CheckedFields.Views (view : CheckedFields) (bag : Fields) : Prop where
  shown : ∀ (field : String) (value : FieldValue), view.fields[field]? = some value →
    bag[field]? = some value
  certified : ∀ field, view.coverage.covers field = true → view.fields[field]? = bag[field]?

/-- No explicit edit turns one zero into the other. -/
def KeepsZeroSigns (bag : Fields) (explicit : FieldEdits) : Prop :=
  ∀ (field : String) (x y : F64), bag[field]? = some (.float x) →
    explicit[field]? = some (some (.float y)) → x.isZero = true → y.isZero = true → x = y

/-! ## Values and their bytes -/

theorem serialize_f64_injective : Function.Injective (serialize : F64 → List UInt8) := by
  intro x y same
  change leBytes 8 x.bits.toNat = leBytes 8 y.bits.toNat at same
  have bits := UInt64.toNat_inj.mp (leBytes_inj x.bits.toNat_lt y.bits.toNat_lt same)
  cases x
  cases y
  exact congrArg F64.mk bits

theorem serialize_fieldValue_injective :
    Function.Injective (serialize : FieldValue → List UInt8) := by
  intro a b same
  cases a <;> cases b <;> obtain ⟨tags, payloads⟩ := varint_append_inj same
  all_goals first
    | exact absurd tags (by decide)
    | skip
  · exact congrArg _ (serialize_int64_injective payloads)
  · exact congrArg _ (serialize_f64_injective payloads)
  · exact congrArg _ (serialize_bool_injective payloads)
  · exact congrArg _ (serialize_string_injective payloads)
  · exact congrArg _ (serialize_bytes_injective payloads)

/-- Equal values are the same, but for the sign of a zero. -/
theorem FieldValue.eq_cases {a b : FieldValue} (equal : a.eq b = true) :
    a = b ∨ ∃ x y, a = .float x ∧ b = .float y ∧ x.isZero = true ∧ y.isZero = true := by
  cases a <;> cases b <;> simp only [FieldValue.eq, beq_iff_eq, Bool.false_eq_true] at equal
  case float.float x y =>
    simp only [F64.eq, Bool.and_eq_true, Bool.or_eq_true, beq_iff_eq] at equal
    rcases equal with ⟨-, bits | zeros⟩
    · left
      cases x
      cases y
      exact congrArg (fun bits => FieldValue.float ⟨bits⟩) bits
    · exact .inr ⟨x, y, rfl, rfl, zeros⟩
  all_goals exact .inl (congrArg _ equal)

variable {value : FieldValue} {field : String}

/-- An admitted value is equal to itself. -/
theorem validateValue_eq_self {definition : CollectionDefinition} {key : String}
    (admitted : definition.validateValue key value = .ok ()) : value.eq value = true := by
  have checked := (validateValue_field admitted).1
  cases value with
  | float x =>
    have finite := rejectIf_eq_ok.mp (check_bind_eq_ok.mp checked).2
    have number : x.isNan = false := by
      simp only [F64.isFinite, Bool.not_eq_false', bne_iff_ne] at finite
      simp [F64.isNan, finite]
    simp [FieldValue.eq, F64.eq, number]
  | _ => simp [FieldValue.eq]

/-! ## Views -/

theorem startsWith_trans {s t u : String} (outer : startsWith s t = true)
    (inner : startsWith t u = true) : startsWith s u = true := by
  rw [startsWith, isPrefixOf_iff_prefix] at *
  exact inner.trans outer

theorem CheckedFields.Views.self (view : CheckedFields) : view.Views view.fields :=
  ⟨fun _ _ shown => shown, fun _ _ => rfl⟩

section Views

variable {view : CheckedFields} {bag : Fields} (views : view.Views bag)

include views

theorem CheckedFields.Views.get {old : Option FieldValue} (answered : view.get field = .ok old) :
    old = bag[field]? := by
  unfold CheckedFields.get at answered
  split at answered
  · next value present =>
    rw [views.shown field value present]
    exact (Except.ok.inj answered).symm
  · next absent =>
    split at answered
    · next covered =>
      rw [← views.certified field covered, absent]
      exact (Except.ok.inj answered).symm
    · cases answered

/-- Enumeration under a certified prefix finds every field of the bag under it. -/
theorem CheckedFields.Views.under {pre : String} {matching : List (String × FieldValue)}
    (answered : view.under pre = .ok matching) (field : String) :
    field ∈ matching.map Prod.fst ↔ startsWith field pre = true ∧ bag[field]?.isSome = true := by
  obtain ⟨-, rest⟩ := check_bind_eq_ok.mp answered
  obtain ⟨known, rest⟩ := check_bind_eq_ok.mp rest
  have complete : startsWith field pre = true → view.fields[field]? = bag[field]? := by
    intro here
    apply views.certified
    cases coverage : view.coverage with
    | complete => rfl
    | selected names prefixes =>
      rw [coverage] at known
      have covered := rejectIf_eq_ok.mp known
      simp only [Bool.not_eq_false', any_eq_true] at covered
      obtain ⟨parent, member, within⟩ := covered
      rw [FieldCoverage.covers, Bool.or_eq_true]
      exact .inr (any_eq_true.mpr ⟨parent, member, startsWith_trans here within⟩)
  rw [← Except.ok.inj rest]
  simp only [mem_map, mem_filter, Prod.exists, exists_and_right, exists_eq_right, mem_toList_iff]
  constructor
  · rintro ⟨⟨value, present⟩, here⟩
    exact ⟨here, by rw [views.shown field value present]; rfl⟩
  · rintro ⟨here, present⟩
    rw [← complete here] at present
    obtain ⟨value, found⟩ := Option.isSome_iff_exists.mp present
    exact ⟨⟨value, found⟩, here⟩

end Views

/-! ## Resolution, loop by loop -/

section Resolution

variable {view : CheckedFields} {bag : Fields} {definition : CollectionDefinition}
  {explicit : FieldEdits} {prefixes : BTreeSet String}

def insertAll (start : FieldEdits) (entries : List (String × Option FieldValue)) : FieldEdits :=
  entries.foldl (fun edits entry => edits.insert entry.1 entry.2) start

theorem get_insertAll_filter (edits : FieldEdits) (keep : String × Option FieldValue → Bool)
    (start : FieldEdits) (field : String) :
    (insertAll start (edits.toList.filter keep))[field]? =
      ((edits[field]?).filter fun edit => keep (field, edit)).or start[field]? := by
  have distinct : ((edits.toList.filter keep).map Prod.fst).Nodup :=
    (keys_toList_nodup edits).sublist (filter_sublist.map _)
  by_cases listed : ∃ edit, edits[field]? = some edit ∧ keep (field, edit) = true
  · obtain ⟨edit, present, kept⟩ := listed
    have member : (field, edit) ∈ edits.toList.filter keep :=
      mem_filter.mpr ⟨(mem_toList_iff edits field edit).mpr present, kept⟩
    rw [insertAll, get_foldl_insert_of_mem Prod.fst Prod.snd start distinct member, present]
    simp [Option.filter, kept]
  · have absent : field ∉ (edits.toList.filter keep).map Prod.fst := by
      rintro member
      obtain ⟨⟨name, edit⟩, among, rfl⟩ := mem_map.mp member
      obtain ⟨present, kept⟩ := mem_filter.mp among
      exact listed ⟨edit, (mem_toList_iff edits name edit).mp present, kept⟩
    rw [insertAll, get_foldl_insert_of_not_mem Prod.fst Prod.snd start absent]
    cases present : edits[field]? with
    | none => rfl
    | some edit =>
      have dropped : keep (field, edit) = false := by
        rw [← Bool.not_eq_true]
        exact fun kept => listed ⟨edit, present, kept⟩
      simp [Option.filter, dropped]

theorem get_foldl_insert_none (matching : List (String × FieldValue)) (edits : FieldEdits)
    (field : String) :
    (matching.foldl (fun edits entry => edits.insert entry.1 none) edits)[field]? =
      if field ∈ matching.map Prod.fst then some none else edits[field]? := by
  induction matching generalizing edits with
  | nil => rfl
  | cons entry rest ih =>
    rw [foldl_cons, ih, get_insert]
    by_cases here : entry.1 = field
    · simp [here]
    · rw [if_neg here]
      have member : field ∈ (entry :: rest).map Prod.fst ↔ field ∈ rest.map Prod.fst := by
        simp only [map_cons, mem_cons, Ne.symm here, false_or]
      simp only [member]

theorem get_insertAll (edits start : FieldEdits) (field : String) :
    (insertAll start edits.toList)[field]? = edits[field]?.or start[field]? := by
  have all := get_insertAll_filter edits (fun _ => true) start field
  rw [filter_true] at all
  rw [all]
  cases edits[field]? <;> rfl

theorem foldlM_removePrefix (views : view.Views bag) {names : List String} {edits : FieldEdits}
    (ok : names.foldlM (removePrefix view definition) ∅ = .ok edits) (field : String) :
    edits[field]? = if underAny names field && bag[field]?.isSome then some none else none := by
  refine foldlM_invariant (P := fun seen (edits : FieldEdits) => ∀ field : String, edits[field]? =
    if underAny seen field && bag[field]?.isSome then some none else none)
    (by simp [underAny]) ?_ ok field
  intro seen pre edits edits' holds step field
  obtain ⟨-, step⟩ := check_bind_eq_ok.mp step
  obtain ⟨matching, enumerated, step⟩ := bind_eq_ok.mp step
  have listed := views.under enumerated field
  have more : underAny (seen ++ [pre]) field = (underAny seen field || startsWith field pre) := by
    simp [underAny]
  rw [← Except.ok.inj step, get_foldl_insert_none, holds, more]
  by_cases here : field ∈ matching.map Prod.fst
  · obtain ⟨under, present⟩ := listed.mp here
    simp [here, under, present]
  · have other : (startsWith field pre && bag[field]?.isSome) = false := by
      rw [← Bool.not_eq_true, Bool.and_eq_true, ← listed]
      exact here
    rw [if_neg here, Bool.and_or_distrib_right, other, Bool.or_false]

variable {entries : List (String × Option FieldValue)} {edit : Option FieldValue}

theorem foldlM_addExplicit_eq {start edits : FieldEdits}
    (ok : entries.foldlM (addExplicit view definition) start = .ok edits) :
    edits = insertAll start entries ∧
      ∀ entry ∈ entries, validateEdit definition entry = .ok () := by
  refine foldlM_invariant (P := fun seen edits => edits = insertAll start seen ∧
    ∀ entry ∈ seen, validateEdit definition entry = .ok ()) ⟨rfl, by simp⟩ ?_ ok
  rintro seen entry edits edits' ⟨rfl, valid⟩ step
  obtain ⟨-, step⟩ := check_bind_eq_ok.mp step
  obtain ⟨checked, step⟩ := check_bind_eq_ok.mp step
  obtain ⟨-, -, step⟩ := bind_eq_ok.mp step
  refine ⟨?_, forall_mem_snoc valid checked⟩
  rw [← Except.ok.inj step, insertAll, insertAll, foldl_append]
  rfl

theorem foldlM_keepActual_eq (views : view.Views bag) {actual : FieldEdits}
    (ok : entries.foldlM (keepActual view) ∅ = .ok actual) :
    actual = insertAll ∅ (entries.filter fun entry => !valueEq bag[entry.1]? entry.2) := by
  refine foldlM_invariant (P := fun seen actual => actual =
    insertAll ∅ (seen.filter fun entry => !valueEq bag[entry.1]? entry.2)) rfl ?_ ok
  rintro seen entry actual actual' rfl step
  obtain ⟨old, answered, step⟩ := bind_eq_ok.mp step
  rw [views.get answered] at step
  rw [← Except.ok.inj step, filter_append]
  cases same : valueEq bag[entry.1]? entry.2 with
  | true => simp [same]
  | false => simp [same, insertAll]

/-- The edit the request makes to a field, if it makes one. -/
def requested (bag : Fields) (explicit : FieldEdits) (prefixes : BTreeSet String)
    (field : String) : Option (Option FieldValue) :=
  explicit[field]?.or
    (if underAny prefixes.toList field && bag[field]?.isSome then some none else none)

theorem requested_getD (field : String) :
    (requested bag explicit prefixes field).getD bag[field]? =
      (performEdits bag explicit prefixes)[field]? := by
  rw [get_performEdits, requested]
  cases explicit[field]? with
  | some edit => rfl
  | none =>
    cases present : bag[field]? <;> cases underAny prefixes.toList field <;> rfl

/-- The command makes the requested edits that change a value. -/
theorem resolveEdits_spec (views : view.Views bag) {change : ResolvedFields}
    (resolved : resolveEdits view explicit prefixes definition = .ok change) :
    ∃ actual : FieldEdits, change = (if actual.isEmpty then .preserve else .edit actual) ∧
      (∀ field : String, actual[field]? = (requested bag explicit prefixes field).filter
        fun edit => !valueEq bag[field]? edit) ∧
      ∀ (field : String) (value : FieldValue), explicit[field]? = some (some value) →
        value.eq value = true := by
  obtain ⟨removals, removed, rest⟩ := bind_eq_ok.mp resolved
  obtain ⟨edits, added, rest⟩ := bind_eq_ok.mp rest
  obtain ⟨actual, kept, ended⟩ := bind_eq_ok.mp rest
  obtain ⟨rfl, valid⟩ := foldlM_addExplicit_eq added
  refine ⟨actual, (Except.ok.inj ended).symm, fun field => ?_, fun field value present => ?_⟩
  · rw [foldlM_keepActual_eq views kept, get_insertAll_filter, get_insertAll,
      foldlM_removePrefix views removed]
    simp [requested]
  · exact validateValue_eq_self (valid _ ((mem_toList_iff explicit field _).mpr present))

theorem get_apply_actual (actual : FieldEdits) (field : String) :
    ((if actual.isEmpty then ResolvedFields.preserve else .edit actual).apply bag)[field]? =
      actual[field]?.getD bag[field]? := by
  split
  · next empty =>
    rw [ExtTreeMap.isEmpty_iff.mp empty, ExtTreeMap.getElem?_empty]
    rfl
  · exact get_applyFieldEdits bag actual field

/-- Only explicit edits write values. -/
theorem requested_value (asked : requested bag explicit prefixes field = some (some value)) :
    explicit[field]? = some (some value) := by
  rw [requested] at asked
  cases given : explicit[field]? with
  | some edit =>
    rw [given] at asked
    exact asked
  | none =>
    rw [given, Option.none_or] at asked
    split at asked <;> cases asked

/-- A dropped edit writes what is there already. -/
theorem requested_same (signs : KeepsZeroSigns bag explicit)
    (asked : requested bag explicit prefixes field = some edit)
    (same : valueEq bag[field]? edit = true) : bag[field]? = edit := by
  cases present : bag[field]? with
  | none =>
    rw [present] at same
    cases edit with
    | none => rfl
    | some value => cases same
  | some old =>
    rw [present] at same
    cases edit with
    | none => cases same
    | some value =>
      have explicitly := requested_value asked
      rcases FieldValue.eq_cases same with rfl | ⟨x, y, rfl, rfl, zeroX, zeroY⟩
      · rfl
      · rw [signs field x y present explicitly zeroX zeroY]

/-- A patched field whose value is equal to the old one is the old one. -/
theorem KeepsZeroSigns.kept (signs : KeepsZeroSigns bag explicit)
    (same : valueEq bag[field]? (applyFieldEdits bag explicit)[field]? = true) :
    bag[field]? = (applyFieldEdits bag explicit)[field]? := by
  rw [get_applyFieldEdits] at same ⊢
  cases given : explicit[field]? with
  | none => rfl
  | some edit =>
    rw [given] at same
    have asked : requested bag explicit ∅ field = some edit := by
      rw [requested, given, Option.some_or]
    exact requested_same signs asked same

/-- An edit that is kept changes the stored bytes. -/
theorem requested_changes (valid : ∀ (field : String) (value : FieldValue),
      explicit[field]? = some (some value) → value.eq value = true)
    (asked : requested bag explicit prefixes field = some edit)
    (differ : valueEq bag[field]? edit = false) :
    storedBytes (performEdits bag explicit prefixes) field ≠ storedBytes bag field := by
  intro same
  rw [storedBytes, storedBytes, ← requested_getD, asked, Option.getD_some] at same
  have equal := Option.map_injective serialize_fieldValue_injective same
  rw [← equal] at differ
  cases edit with
  | none => cases differ
  | some value =>
    have explicitly : explicit[field]? = some (some value) := requested_value asked
    rw [valueEq, optionEq, valid field value explicitly] at differ
    cases differ

end Resolution

/-! ## Composition -/

theorem get_insertMany (old next : FieldEdits) (field : String) :
    (old.insertMany next.toList)[field]? = next[field]?.or old[field]? := by
  cases present : next[field]? with
  | some edit =>
    exact ExtTreeMap.getElem?_insertMany_list_of_mem ReflCmp.compare_self
      (pairwise_ne_of_nodup (keys_toList_nodup next)) ((mem_toList_iff next field edit).mpr present)
  | none =>
    refine ExtTreeMap.getElem?_insertMany_list_of_contains_eq_false ?_
    rw [ExtTreeMap.map_fst_toList_eq_keys, ← Bool.not_eq_true, contains_iff_mem,
      ExtTreeMap.mem_keys, not_mem_iff_get]
    exact present

theorem ResolvedFields.apply_then (a b : ResolvedFields) (fields : Fields) :
    (a.then_ b).apply fields = b.apply (a.apply fields) := by
  cases b with
  | preserve => cases a <;> rfl
  | replace replacement => cases a <;> rfl
  | edit next =>
    cases a with
    | preserve => rfl
    | replace replacement => rfl
    | edit old =>
      refine ExtTreeMap.ext_getElem? fun field => ?_
      change (applyFieldEdits fields (old.insertMany next.toList))[field]? =
        (applyFieldEdits (applyFieldEdits fields old) next)[field]?
      rw [get_applyFieldEdits, get_applyFieldEdits, get_applyFieldEdits, get_insertMany]
      cases next[field]? <;> rfl

/-! ## Exactness -/

/-- Dropping the edits that change no value is exact unless one of them writes the other zero. -/
theorem apply_eq_performEdits_iff {bag : Fields} {explicit actual : FieldEdits}
    {prefixes : BTreeSet String}
    (named : ∀ field : String, actual[field]? = (requested bag explicit prefixes field).filter
      fun edit => !valueEq bag[field]? edit) :
    (if actual.isEmpty then ResolvedFields.preserve else .edit actual).apply bag =
      performEdits bag explicit prefixes ↔ KeepsZeroSigns bag explicit := by
  constructor
  · intro applied field x y present explicitly zeroX zeroY
    -- the edit is dropped, so the bag keeps `x` where the request asks for `y`
    have asked : requested bag explicit prefixes field = some (some (.float y)) := by
      rw [requested, explicitly, Option.some_or]
    have equal : valueEq bag[field]? (some (.float y)) = true := by
      rw [present]
      exact F64.eq_of_isZero zeroX zeroY
    have dropped : actual[field]? = none := by
      rw [named, asked, Option.filter_eq_none_iff]
      simp [equal]
    have kept := congrArg (fun bag : Fields => bag[field]?) applied
    simp only [get_apply_actual, dropped, ← requested_getD, asked, present, Option.getD_none,
      Option.getD_some, Option.some.injEq, FieldValue.float.injEq] at kept
    exact kept
  · intro signs
    refine ExtTreeMap.ext_getElem? fun field => ?_
    rw [get_apply_actual, named, ← requested_getD]
    cases asked : requested bag explicit prefixes field with
    | none => rfl
    | some edit =>
      cases same : valueEq bag[field]? edit with
      | false => simp [Option.filter, same]
      | true =>
        simp only [Option.filter, same]
        exact requested_same signs asked same

/-- The resolved command does to the complete bag what the request asks for, and preserves it
exactly when no stored byte changes, if and only if the request changes no sign of a zero. It
always names only fields whose stored bytes change. Commands compose in order. -/
theorem resolveEdits_exact_iff {view : CheckedFields} {bag : Fields} {explicit : FieldEdits}
    {prefixes : BTreeSet String} {definition : CollectionDefinition} {change : ResolvedFields}
    (views : view.Views bag)
    (resolved : resolveEdits view explicit prefixes definition = .ok change) :
    (change.apply bag = performEdits bag explicit prefixes ∧
      (change = .preserve ↔
        ∀ field, storedBytes (performEdits bag explicit prefixes) field = storedBytes bag field) ↔
      KeepsZeroSigns bag explicit) ∧
    (∀ edits, change = .edit edits → ∀ field ∈ edits,
      storedBytes (performEdits bag explicit prefixes) field ≠ storedBytes bag field) ∧
    ∀ (a b : ResolvedFields) fields, (a.then_ b).apply fields = b.apply (a.apply fields) := by
  obtain ⟨actual, rfl, named, valid⟩ := resolveEdits_spec views resolved
  have changes : ∀ field, field ∈ actual →
      storedBytes (performEdits bag explicit prefixes) field ≠ storedBytes bag field := by
    intro field member same
    obtain ⟨edit, present⟩ := (mem_iff_get actual field).mp member
    rw [named, Option.filter_eq_some_iff] at present
    exact requested_changes valid present.1 (by simpa using present.2) same
  refine ⟨⟨fun exact => (apply_eq_performEdits_iff named).mp exact.1, fun signs => ?_⟩, ?_,
    ResolvedFields.apply_then⟩
  · have applied := (apply_eq_performEdits_iff named).mpr signs
    refine ⟨applied, fun preserved field => ?_, fun same => ?_⟩
    · rw [← applied, preserved]
      rfl
    · have empty : actual = ∅ := ExtTreeMap.eq_empty_iff_forall_not_mem.mpr
        fun field member => changes field member (same field)
      rw [if_pos (ExtTreeMap.isEmpty_iff.mpr empty)]
  · intro edits edited field member
    split at edited
    · cases edited
    · cases edited
      exact changes field member

section Examples

/-- A declared float and a free namespace. -/
def labels : CollectionDefinition where
  fields := .ofList [("v", FieldType.float)]
  indexes := ∅
  uniqueIndexes := ∅
  additionalFieldPrefixes := .ofList ["meta/"]

def zeroBag : Fields := .ofList [("v", FieldValue.float ⟨0⟩)]

def negateZero : FieldEdits := .ofList [("v", some (FieldValue.float ⟨0x8000000000000000⟩))]

/-- The edit from `0.0` to `-0.0` resolves to no change, although the stored bytes differ. -/
theorem resolveEdits_drops_negative_zero :
    (⟨zeroBag, .complete⟩ : CheckedFields).Views zeroBag ∧
      resolveEdits ⟨zeroBag, .complete⟩ negateZero ∅ labels = .ok .preserve ∧
      storedBytes (ResolvedFields.preserve.apply zeroBag) "v" ≠
        storedBytes (performEdits zeroBag negateZero ∅) "v" := by
  refine ⟨⟨fun _ _ shown => shown, fun _ _ => rfl⟩, ?_, ?_⟩
  · decide +kernel
  · decide +kernel

def taggedBag : Fields :=
  .ofList [("v", FieldValue.float ⟨0⟩), ("meta/a", .integer 1), ("meta/b", .integer 2),
    ("w", .boolean true)]

/-- A view of the namespace and of one name; it says nothing about the field "w". -/
def taggedView : CheckedFields :=
  ⟨taggedBag.erase "w", .selected (.ofList ["v"]) (.ofList ["meta/"])⟩

def retag : FieldEdits :=
  .ofList [("meta/b", some (FieldValue.integer 3)), ("v", some (.float ⟨0⟩))]

def retagged : FieldEdits :=
  .ofList [("meta/a", none), ("meta/b", some (FieldValue.integer 3))]

/-- One tag is removed with its prefix, the other one is rewritten, and the float is dropped from
the command. -/
theorem resolveEdits_exact_iff_retag :
    (ResolvedFields.edit retagged).apply taggedBag =
      performEdits taggedBag retag (.ofList ["meta/"]) := by
  have views : taggedView.Views taggedBag := by
    constructor
    · intro field value shown
      change (taggedBag.erase "w")[field]? = some value at shown
      rw [get_erase] at shown
      split at shown
      · cases shown
      · exact shown
    · intro field covered
      refine get_erase_ne _ ?_
      rintro rfl
      revert covered
      decide +kernel
  have resolved : resolveEdits taggedView retag (.ofList ["meta/"]) labels =
      .ok (.edit retagged) := by
    decide +kernel
  refine ((resolveEdits_exact_iff views resolved).1.mpr ?_).1
  intro field x y present explicitly zeroX zeroY
  have edits : retag.toList = [("meta/b", some (.integer 3)), ("v", some (.float ⟨0⟩))] := by
    decide +kernel
  have member := (mem_toList_iff retag field _).mpr explicitly
  rw [edits] at member
  simp only [mem_cons, Prod.mk.injEq, Option.some.injEq, reduceCtorEq, and_false,
    FieldValue.float.injEq, not_mem_nil, or_false, false_or] at member
  obtain ⟨rfl, rfl⟩ := member
  have stored : taggedBag["v"]? = some (.float ⟨0⟩) := by decide +kernel
  rw [stored] at present
  cases present
  rfl

end Examples

end QueueFields
