import Fireweed.Budgets
import Fireweed.Postcard.Decoding
import Fireweed.PrefixCovers
import Fireweed.QueueFields
import Fireweed.QueueSourceIndex.Literals
import Fireweed.QueueSourceIndex.ScalarRanges

/-!
# Loading declared fields

A record is read as far as a request declares it: single names, and all fields
under prefixes. Nested prefixes are read once, and a name under a prefix is not
read on its own. What was read certifies which names are absent.
-/

namespace QueueSourceIndex

open BTree Budgets Checked Postcard PrefixCovers PrefixRanges QueueContract QueueFields QueueIndex
open List hiding map_map mem_iff_get
open Std (ExtTreeMap ExtTreeSet)

def fieldsUnknown (message : String) : QueueError := .outcomeUnknown ("source fields: " ++ message)

def takeVariant : Nat → Reader FieldValue
  | 0, bytes => (takeI64 bytes).map fun n => (.integer n.1, n.2)
  | 1, bytes => (takeBytes 8 bytes).map fun x => (.float ⟨UInt64.ofNat (ofLeBytes x.1)⟩, x.2)
  | 2, bytes => (takeBool bytes).map fun b => (.boolean b.1, b.2)
  | 3, bytes => (takeStr bytes).map fun t => (.text t.1, t.2)
  | 4, bytes => (takeSlice bytes).map fun b => (.bytes b.1, b.2)
  | _, _ => none

def takeValue : Reader FieldValue := fun bytes =>
  (takeU32 bytes).bind fun taken => takeVariant taken.1 taken.2

def value (bytes : List UInt8) : QueueResult FieldValue :=
  match takeValue bytes with
  | none => .error (fieldsUnknown "invalid field fact")
  | some (value, rest) => do
    rejectIf (!rest.isEmpty) (fieldsUnknown "trailing field fact bytes")
    .ok value

structure QueueSourceFields where
  fields : Fields
  coverage : FieldCoverage
  charged : Nat

/-- The sizes of the structures that are charged. -/
def sizeOfFields : Nat := 88

def sizeOfStr : Nat := 16

def sizeOfString : Nat := 24

def sizeOfVec : Nat := 24

namespace QueueSourceFields

/-- Charge retained bytes; `held` is what the operation holds besides. -/
def charge (free held : Nat) (self : QueueSourceFields) (bytes : Nat) :
    QueueResult QueueSourceFields := do
  let scaled ← checkedSize (bytes * 4)
  let padded ← checkedSize (scaled + 1024)
  ownedBuffer free (held + self.charged + padded)
  .ok { self with charged := self.charged + padded }

def retain (free held : Nat) (definition : CollectionDefinition) (self : QueueSourceFields)
    (name : String) (bytes : List UInt8) : QueueResult QueueSourceFields := do
  let parsed ← value bytes
  let size ← checkedSize ((asBytes name).length + bytes.length)
  let self ← self.charge free held size
  (definition.validateValue name parsed).mapError fun _ =>
    fieldsUnknown "field fact violates queue schema"
  rejectIf (self.fields.contains name) (fieldsUnknown "duplicate field fact")
  .ok { self with fields := self.fields.insert name parsed }

def name (free held : Nat) (self : QueueSourceFields) (name : String) :
    QueueResult QueueSourceFields :=
  match self.coverage with
  | .complete => .ok self
  | .selected names prefixes =>
    if names.contains name then .ok self
    else do
      let self ← self.charge free held (asBytes name).length
      .ok { self with coverage := .selected (names.insert name) prefixes }

def presentCount (self : QueueSourceFields) : Nat := self.fields.size

end QueueSourceFields

/-- The cells of the source at one cut. -/
abbrev Cells := BTreeMap (List UInt8) (List UInt8)

section Load

variable (free : Nat) (cells : Cells) (collection : Option String) (key : String)
  (definition : CollectionDefinition)

def lookupName (held : Nat) (output : QueueSourceFields) (name : String) :
    QueueResult QueueSourceFields := do
  let len ← (QueueSourceKey.field collection key name).encodedLen
  ownedBuffer free (held + output.charged + len)
  let cell ← (QueueSourceKey.field collection key name).encode
  match cells[cell]? with
  | some bytes => output.retain free (held + len) definition name bytes
  | none => .ok output

def fillSelected (held : Nat) (output : QueueSourceFields) : QueueResult QueueSourceFields :=
  match output.coverage with
  | .complete => .ok output
  | .selected names _ => do
    let namesBytes ← names.toList.foldlM (fun n name => do
      let n ← checkedSize (n + (asBytes name).length)
      checkedSize (n + sizeOfString)) 0
    let output ← output.charge free held namesBytes
    names.toList.foldlM (lookupName free cells collection key definition held) output

/-- One pass over the sorted prefixes discards those below another one. -/
def normalize (prefixes : List String) : List String :=
  prefixes.foldl (fun normalized pre =>
    if normalized.getLast?.any fun parent => startsWith pre parent then normalized
    else normalized ++ [pre]) []

/-- `partition_point` of a list whose elements that satisfy the test come first. -/
def partitionPoint {α : Type} (test : α → Bool) (l : List α) : Nat := (l.takeWhile test).length

/-- Whether a name is below the last prefix that is not after it. -/
def belowPreceding (normalized : List String) (name : String) : Bool :=
  let preceding := partitionPoint (fun pre => decide (pre ≤ name)) normalized
  if preceding = 0 then false else normalized[preceding - 1]?.any fun pre => startsWith name pre

def selectName (held : Nat) (normalized : List String) (output : QueueSourceFields)
    (name : String) : QueueResult QueueSourceFields :=
  if belowPreceding normalized name then .ok output else output.name free held name

def recordFieldsPrefix : QueueResult (List UInt8) := do
  let _ ← recordFieldsPrefixLen collection key
  written (writeRecordFields collection key)

def exceeds (expectedCount : Nat) (output : QueueSourceFields) : QueueResult Unit :=
  rejectIf (decide (expectedCount < output.presentCount))
    (fieldsUnknown "selected fields exceed authenticated membership count")

def visitField (held : Nat) (recordPrefix : List UInt8) (expectedCount : Nat) (pre : String)
    (output : QueueSourceFields) (cell : List UInt8 × List UInt8) :
    QueueResult QueueSourceFields :=
  match recordPrefix.isPrefixOf? cell.1 with
  | none => .error (fieldsUnknown "field record prefix differs")
  | some suffix => do
    let size ← checkedSize (suffix.length + sizeOfString)
    ownedBuffer free (held + output.charged + size)
    let name ← textLiteral suffix
    rejectIf (!startsWith name pre) (fieldsUnknown "field outside declared literal prefix")
    let output ← output.retain free (held + size) definition name cell.2
    exceeds expectedCount output
    .ok output

def certify (output : QueueSourceFields) (pre : String) : QueueSourceFields :=
  match output.coverage with
  | .complete => output
  | .selected names prefixes => { output with coverage := .selected names (prefixes.insert pre) }

def loadPrefix (held : Nat) (recordPrefix : List UInt8) (expectedCount : Nat)
    (output : QueueSourceFields) (pre : String) : QueueResult QueueSourceFields := do
  let len ← recordFieldNamePrefixLen collection key pre
  let twice ← checkedSize (len * 2)
  ownedBuffer free (held + output.charged + twice)
  let lower ← recordFieldNamePrefix collection key pre
  match prefixSuccessor lower with
  | none => .error (fieldsUnknown "field prefix has no upper bound")
  | some upper => do
    let range := cells.toList.filter fun cell => decide (Within lower upper cell.1)
    let output ← range.foldlM
      (visitField free definition (held + twice) recordPrefix expectedCount pre) output
    let output ← output.charge free (held + twice) (asBytes pre).length
    .ok (certify output pre)

/-- Load the declared names and all fields under the declared prefixes. -/
def loadSelectedFields (expectedCount : Nat) (names prefixes : BTreeSet String) :
    QueueResult QueueSourceFields := do
  rejectIf (prefixes.toList.any blank) (fieldsUnknown "empty field-coverage prefix")
  ownedBuffer free (sizeOfFields + 1024)
  let output : QueueSourceFields := ⟨∅, .selected ∅ ∅, sizeOfFields + 1024⟩
  let slots ← checkedSize (prefixes.size * sizeOfStr)
  let held ← checkedSize (slots + sizeOfVec)
  ownedBuffer free (held + output.charged)
  let normalized := normalize prefixes.toList
  let output ← names.toList.foldlM (selectName free held normalized) output
  let output ← fillSelected free cells collection key definition held output
  if normalized.isEmpty then do
    exceeds expectedCount output
    .ok output
  else do
    let recordLen ← recordFieldsPrefixLen collection key
    ownedBuffer free (held + output.charged + recordLen)
    let recordPrefix ← recordFieldsPrefix collection key
    let output ← normalized.foldlM
      (loadPrefix free cells collection key definition (held + recordLen) recordPrefix
        expectedCount) output
    exceeds expectedCount output
    .ok output

end Load

/-! ## Prefixes of names -/

/-- Names are ordered as words are. -/
theorem lexical_startsWith : Lexical startsWith where
  refl _ := List.isPrefixOf_iff_prefix.mpr (prefix_refl _)
  trans first second :=
    List.isPrefixOf_iff_prefix.mpr ((List.isPrefixOf_iff_prefix.mp first).trans
      (List.isPrefixOf_iff_prefix.mp second))
  le starts := String.le_iff_toList_le.mpr (le_of_isPrefix (List.isPrefixOf_iff_prefix.mp starts))
  between low high starts := List.isPrefixOf_iff_prefix.mpr
    (prefix_of_between (String.le_iff_toList_le.mp low) (String.le_iff_toList_le.mp high)
      (List.isPrefixOf_iff_prefix.mp starts))

theorem normalize_eq (prefixes : List String) :
    normalize prefixes = outermost startsWith prefixes := rfl

theorem any_last {α : Type} (taken rest : List α) (test : α → Bool) :
    (if taken.length = 0 then false else (taken ++ rest)[taken.length - 1]?.any test) =
      taken.getLast?.any test := by
  split_ifs with none
  · rw [length_eq_zero_iff.mp none]
    rfl
  · rw [getLast?_eq_getElem?, getElem?_append_left (by omega)]

theorem belowPreceding_eq (normalized : List String) (name : String) :
    belowPreceding normalized name =
      (normalized.takeWhile fun pre => decide (pre ≤ name)).getLast?.any (startsWith name) := by
  obtain ⟨rest, whole⟩ : (normalized.takeWhile fun pre => decide (pre ≤ name)) <+: normalized :=
    takeWhile_prefix _
  have last := any_last (normalized.takeWhile fun pre => decide (pre ≤ name)) rest (startsWith name)
  rw [whole] at last
  exact last

def Declared (names prefixes : BTreeSet String) (name : String) : Prop :=
  name ∈ names ∨ ∃ pre ∈ prefixes, startsWith name pre = true

theorem sorted_toList (set : BTreeSet String) : set.toList.Pairwise (· < ·) := by
  exact ExtTreeSet.ordered_toList.imp fun less => compare_lt_iff_lt.mp less

/-- The search among the normalized prefixes finds every declared prefix of a name. -/
theorem belowPreceding_iff (prefixes : BTreeSet String) (name : String) :
    belowPreceding (normalize prefixes.toList) name = true ↔
      ∃ pre ∈ prefixes, startsWith name pre = true := by
  rw [belowPreceding_eq, normalize_eq, covered_iff_preceding lexical_startsWith
    (apart_outermost lexical_startsWith (sorted_toList prefixes)),
    covered_outermost_iff lexical_startsWith]
  simp only [ExtTreeSet.mem_toList]

/-! ## Field facts -/

theorem serialize_bytes (b : List UInt8) : serialize b = varint b.length ++ b := by
  change varint b.length ++ b.flatMap (fun byte => [byte]) = _
  rw [flatMap_singleton']

/-- A variant with one payload is read by the reader of the payload. -/
theorem takeValue_of {α : Type} {read : Reader α} {f : α → FieldValue} {n : Nat} {a : α}
    {payload : List UInt8} (small : n < 128)
    (variants : takeVariant n = fun bytes => (read bytes).map fun taken => (f taken.1, taken.2))
    (taken : read (payload ++ []) = some (a, [])) :
    takeValue (variant n payload) = some (f a, []) := by
  rw [append_nil] at taken
  rw [takeValue, variant, takeU32_varint small, Option.bind_some, variants]
  dsimp only
  rw [taken, Option.map_some]

variable {v : FieldValue} {selected : String → Prop} {fields loaded : Fields}

theorem takeValue_serialize (sized : (serialize v).length < 2 ^ 64) :
    takeValue (serialize v) = some (v, []) := by
  have payload : ∀ n (rest : List UInt8), serialize v = variant n rest → rest.length < 2 ^ 64 := by
    intro n rest whole
    rw [whole, variant, length_append] at sized
    omega
  cases v with
  | integer n => exact takeValue_of (by decide) rfl (takeI64_serialize n [])
  | float x =>
    have taken := takeBytes_append (leBytes 8 x.bits.toNat) []
    rw [leBytes_length] at taken
    refine (takeValue_of (f := fun x => .float ⟨UInt64.ofNat (ofLeBytes x)⟩) (by decide) rfl
      taken).trans ?_
    rw [ofLeBytes_leBytes x.bits.toNat_lt, UInt64.ofNat_toNat]
  | boolean b => exact takeValue_of (by decide) rfl (takeBool_serialize b [])
  | text t =>
    have short := payload 3 (serialize t) rfl
    rw [serialize_string_length] at short
    exact takeValue_of (by decide) rfl (takeStr_serialize (by omega) [])
  | bytes b =>
    have short := payload 4 (serialize b) rfl
    rw [serialize_bytes, length_append] at short
    refine takeValue_of (by decide) rfl ?_
    rw [serialize_bytes]
    exact takeSlice_append (by omega) []

theorem value_serialize (sized : (serialize v).length < 2 ^ 64) : value (serialize v) = .ok v := by
  rw [value, takeValue_serialize sized]
  rfl

/-! ## Charges -/

/-- The error of a charge that is not admitted. -/
def exhausted : QueueError :=
  .outcomeUnknown "admitted buffer capacity exhausted; resolve owned operation"

theorem enough_ownedBuffer (bytes : Nat) :
    Enough exhausted (fun free => ownedBuffer free bytes) () :=
  enough_charge bytes

open Enough

namespace QueueSourceFields

theorem enough_charge (held : Nat) (self : QueueSourceFields) {bytes : Nat}
    (sized : bytes * 4 + 1024 < 2 ^ 64) :
    Enough exhausted (fun free => self.charge free held bytes)
      { self with charged := self.charged + (bytes * 4 + 1024) } := by
  refine bind (a := bytes * 4) (.of_eq fun _ => checkedSize_eq_ok.mpr ⟨by omega, rfl⟩) ?_
  refine bind (a := bytes * 4 + 1024) (.of_eq fun _ => checkedSize_eq_ok.mpr ⟨sized, rfl⟩) ?_
  exact (enough_ownedBuffer _).bind (.of_eq fun _ => rfl)

/-- A fact that is not there yet is retained. -/
theorem enough_retain (held : Nat) {definition : CollectionDefinition} (self : QueueSourceFields)
    {name : String} (admitted : definition.validateValue name v = .ok ())
    (fresh : self.fields[name]? = none)
    (sized : ((asBytes name).length + (serialize v).length) * 4 + 1024 < 2 ^ 64) :
    ∃ charged, Enough exhausted (fun free => self.retain free held definition name (serialize v))
      ⟨self.fields.insert name v, self.coverage, charged⟩ := by
  refine ⟨self.charged + (((asBytes name).length + (serialize v).length) * 4 + 1024), ?_⟩
  refine bind (a := v) (.of_eq fun _ => value_serialize (by omega)) ?_
  refine bind (a := (asBytes name).length + (serialize v).length)
    (.of_eq fun _ => checkedSize_eq_ok.mpr ⟨by omega, rfl⟩) ?_
  refine (enough_charge held self sized).bind (.of_eq fun _ => ?_)
  rw [admitted]
  have absent : self.fields.contains name = false := by
    rw [← Bool.not_eq_true, ExtTreeMap.contains_iff_mem, not_mem_iff_get]
    exact fresh
  exact check_bind_eq_ok.mpr ⟨rfl, check_bind_eq_ok.mpr ⟨rejectIf_eq_ok.mpr absent, rfl⟩⟩

/-- A name is added to the coverage. -/
theorem enough_name (held : Nat) {self : QueueSourceFields} {names prefixes : BTreeSet String}
    (coverage : self.coverage = .selected names prefixes) {name : String}
    (sized : (asBytes name).length * 4 + 1024 < 2 ^ 64) :
    ∃ charged, Enough exhausted (fun free => self.name free held name)
      ⟨self.fields, .selected (names.insert name) prefixes, charged⟩ := by
  obtain ⟨fields, _, charged⟩ := self
  subst coverage
  by_cases old : name ∈ names
  · have same : names.insert name = names := by
      refine ExtTreeSet.ext_mem fun other => ?_
      rw [ExtTreeSet.mem_insert, compare_eq_iff_eq]
      exact ⟨fun either => either.elim (fun equal => equal ▸ old) id, .inr⟩
    refine ⟨charged, .of_eq fun _ => ?_⟩
    rw [same]
    exact if_pos (ExtTreeSet.contains_iff_mem.mpr old)
  · refine ⟨charged + ((asBytes name).length * 4 + 1024),
      congr (fun _ => if_neg (mt ExtTreeSet.contains_iff_mem.mp old)) ?_⟩
    exact (enough_charge held ⟨fields, .selected names prefixes, charged⟩ sized).bind
      (.of_eq fun _ => rfl)

end QueueSourceFields

/-! ## Names -/

/-- The fields of a record as cells: each field has its cell, and the record has no others. -/
structure StoredFields (cells : Cells) (collection : Option String) (key : String)
    (fields : Fields) : Prop where
  present : ∀ name v, fields[name]? = some v →
    ∃ cell, (QueueSourceKey.field collection key name).encode = .ok cell ∧
      cells[cell]? = some (serialize v)
  only : ∀ cell bytes, cells[cell]? = some bytes →
    [version, 3] ++ (collectionWord collection ++ escaped (asBytes key)) <+: cell →
    ∃ name v, fields[name]? = some v ∧ (QueueSourceKey.field collection key name).encode = .ok cell

/-- The sizes that the loader computes fit in 64 bits. -/
structure Sized (collection : Option String) (key : String) (names prefixes : BTreeSet String)
    (fields : Fields) : Prop where
  listed : (names.toList.map fun name => (asBytes name).length + sizeOfString).sum * 4 + 1024 <
    2 ^ 64
  keys : ∀ name ∈ names, (QueueSourceKey.field collection key name).word.length < 2 ^ 64
  slots : prefixes.size * sizeOfStr + sizeOfVec < 2 ^ 64
  bounds : ∀ pre ∈ prefixes,
    ([version, 3] ++ (collectionWord collection ++ (escaped (asBytes key) ++
      escapedPrefix (asBytes pre)))).length * 2 < 2 ^ 64 ∧
    (asBytes pre).length * 4 + 1024 < 2 ^ 64
  facts : ∀ name v, fields[name]? = some v →
    ((asBytes name).length + (serialize v).length) * 4 + 1024 < 2 ^ 64 ∧
    (escaped (asBytes name)).length + sizeOfString < 2 ^ 64

/-- The loaded fields are those of the record that are selected. -/
def Selects (fields loaded : Fields) (selected : String → Prop) : Prop :=
  (∀ name, selected name → loaded[name]? = fields[name]?) ∧
    ∀ name, ¬selected name → loaded[name]? = none

/-- One more field is loaded. -/
theorem Selects.step {next : Fields} {selected' : String → Prop}
    (selects : Selects fields loaded selected) {name : String} (here : next[name]? = fields[name]?)
    (elsewhere : ∀ other, other ≠ name → next[other]? = loaded[other]?)
    (grown : ∀ other, selected' other ↔ selected other ∨ other = name) :
    Selects fields next selected' := by
  obtain ⟨inside, outside⟩ := selects
  constructor
  · intro other member
    by_cases same : other = name
    · rw [same, here]
    · rw [elsewhere other same, inside other (((grown other).mp member).resolve_right same)]
  · intro other apart
    rw [grown, not_or] at apart
    rw [elsewhere other apart.2, outside other apart.1]

/-- Only the selection of present fields matters. -/
theorem Selects.congr {selected' : String → Prop} (selects : Selects fields loaded selected)
    (same : ∀ name v, fields[name]? = some v → (selected name ↔ selected' name)) :
    Selects fields loaded selected' := by
  obtain ⟨inside, outside⟩ := selects
  have absent : ∀ name : String, fields[name]? = none → loaded[name]? = none := by
    intro name none
    by_cases member : selected name
    · rw [inside name member, none]
    · exact outside name member
  constructor
  · intro name member
    cases present : fields[name]? with
    | none => exact absent name present
    | some v => rw [inside name ((same name v present).mpr member), present]
  · intro name apart
    cases present : fields[name]? with
    | none => exact absent name present
    | some v => exact outside name (mt (same name v present).mp apart)

/-- No more fields are loaded than there are. -/
theorem Selects.size_le (selects : Selects fields loaded selected) : loaded.size ≤ fields.size := by
  have inside : loaded.toList.map Prod.fst ⊆ fields.toList.map Prod.fst := by
    intro name member
    obtain ⟨⟨field, v⟩, entry, rfl⟩ := mem_map.mp member
    have present := (mem_toList_iff loaded field v).mp entry
    by_cases chosen : selected field
    · rw [selects.1 field chosen] at present
      exact mem_map.mpr ⟨(field, v), (mem_toList_iff fields field v).mpr present, rfl⟩
    · rw [selects.2 field chosen] at present
      cases present
  have counted := ((keys_toList_nodup loaded).subperm inside).length_le
  simpa [ExtTreeMap.length_toList] using counted

/-- A record whose fields can be loaded: its cells, facts that the schema admits, sizes that fit and
a count that bounds them. -/
structure Loadable (cells : Cells) (collection : Option String) (key : String)
    (definition : CollectionDefinition) (names prefixes : BTreeSet String) (fields : Fields)
    (expectedCount : Nat) : Prop where
  stored : StoredFields cells collection key fields
  admitted : ∀ name v, fields[name]? = some v → definition.validateValue name v = .ok ()
  sized : Sized collection key names prefixes fields
  counted : fields.size ≤ expectedCount

/-- A name is under a declared prefix. -/
def Below (prefixes : BTreeSet String) (name : String) : Prop :=
  ∃ pre ∈ prefixes, startsWith name pre = true

open QueueSourceKey

section Phases

variable {cells : Cells} {collection : Option String} {key : String}
  {definition : CollectionDefinition} {names prefixes : BTreeSet String} {fields : Fields}
  {expectedCount : Nat}

variable {kept : BTreeSet String} {output : QueueSourceFields} {cell : List UInt8} {pre : String}

theorem sum_le_of_subset (size : String → Nat) (inside : ∀ name ∈ kept, name ∈ names) :
    (kept.toList.map size).sum ≤ (names.toList.map size).sum := by
  have nodup : ∀ set : BTreeSet String, set.toList.Nodup := fun set =>
    (sorted_toList set).imp fun less => ne_of_lt less
  rw [← sum_toFinset size (nodup kept), ← sum_toFinset size (nodup names)]
  refine Finset.sum_le_sum_of_subset fun name member => ?_
  rw [mem_toFinset, ExtTreeSet.mem_toList] at member ⊢
  exact inside name member

/-- What the coverage of an output is while names are collected. -/
def Collects (prefixes : BTreeSet String) (output : QueueSourceFields) (seen : List String) :
    Prop :=
  ∃ kept : BTreeSet String, output.coverage = .selected kept ∅ ∧ ∀ name, name ∈ kept ↔
    name ∈ seen ∧ ¬Below prefixes name

theorem enough_selectName (held : Nat) {seen : List String}
    (collects : Collects prefixes output seen) {name : String}
    (sized : (asBytes name).length * 4 + 1024 < 2 ^ 64) :
    ∃ next, Enough exhausted (fun free =>
        selectName free held (normalize prefixes.toList) output name) next ∧
      next.fields = output.fields ∧ Collects prefixes next (seen ++ [name]) := by
  obtain ⟨kept, coverage, members⟩ := collects
  by_cases below : belowPreceding (normalize prefixes.toList) name = true
  · have covered := (belowPreceding_iff prefixes name).mp below
    refine ⟨output, .of_eq fun _ => by rw [selectName, if_pos below], rfl, kept, coverage, ?_⟩
    intro other
    rw [members, mem_append, mem_singleton]
    constructor
    · rintro ⟨old, bare⟩
      exact ⟨.inl old, bare⟩
    · rintro ⟨old | rfl, bare⟩
      · exact ⟨old, bare⟩
      · exact absurd covered bare
  · have bare := mt (belowPreceding_iff prefixes name).mpr below
    obtain ⟨charged, runs⟩ := QueueSourceFields.enough_name held coverage sized
    refine ⟨⟨output.fields, .selected (kept.insert name) ∅, charged⟩,
      congr (fun _ => if_neg below) runs, rfl, kept.insert name, rfl, ?_⟩
    intro other
    rw [ExtTreeSet.mem_insert, members, mem_append, mem_singleton, compare_eq_iff_eq]
    constructor
    · rintro (rfl | ⟨inside, free⟩)
      · exact ⟨.inr rfl, bare⟩
      · exact ⟨.inl inside, free⟩
    · rintro ⟨inside | rfl, free⟩
      · exact .inr ⟨inside, free⟩
      · exact .inl rfl

/-- The names that are read on their own are those below no prefix. -/
theorem enough_selectNames (held : Nat) (names prefixes : BTreeSet String)
    (output : QueueSourceFields) (start : output.coverage = .selected ∅ ∅)
    (sized : ∀ name ∈ names, (asBytes name).length * 4 + 1024 < 2 ^ 64) :
    ∃ result, Enough exhausted (fun free => names.toList.foldlM
        (selectName free held (normalize prefixes.toList)) output) result ∧
      result.fields = output.fields ∧ Collects prefixes result names.toList := by
  refine enough_foldlM (P := fun seen result => result.fields = output.fields ∧
    Collects prefixes result seen) ⟨rfl, ∅, start, by simp⟩ ?_
  rintro seen name rest result whole ⟨same, collects⟩
  have listed : name ∈ names := by
    rw [← ExtTreeSet.mem_toList, whole]
    simp
  obtain ⟨next, runs, same', collects'⟩ := enough_selectName held collects (sized name listed)
  exact ⟨next, runs, same'.trans same, collects'⟩

theorem StoredFields.lookup (stored : StoredFields cells collection key fields) {name : String}
    (encoded : (field collection key name).encode = .ok cell) :
    cells[cell]? = fields[name]?.map serialize := by
  cases present : fields[name]? with
  | some v =>
    obtain ⟨cell', encoded', found⟩ := stored.present name v present
    obtain rfl := Except.ok.inj (encoded.symm.trans encoded')
    exact found
  | none =>
    rw [Option.map_none]
    by_contra found
    obtain ⟨bytes, found⟩ := Option.ne_none_iff_exists'.mp found
    have shape := (encode_eq_ok.mp encoded).2.2
    obtain ⟨other, v, present', encoded'⟩ := stored.only cell bytes found (by
      rw [shape]
      exact ⟨escaped (asBytes name), by simp [word, body,
        family]⟩)
    cases encode_injective encoded encoded'
    rw [present] at present'
    cases present'

theorem foldlM_names {l : List String} {n : Nat}
    (fits : n + (l.map fun name => (asBytes name).length + sizeOfString).sum < 2 ^ 64) :
    l.foldlM (fun n name => do
      let n ← checkedSize (n + (asBytes name).length)
      checkedSize (n + sizeOfString)) n =
      .ok (n + (l.map fun name => (asBytes name).length + sizeOfString).sum) := by
  induction l generalizing n with
  | nil => rfl
  | cons name l ih =>
    rw [map_cons, sum_cons] at fits ⊢
    rw [foldlM_cons, checkedSize_eq_ok.mpr ⟨by omega, rfl⟩, ok_bind,
      checkedSize_eq_ok.mpr ⟨by omega, rfl⟩, ok_bind, ih (by omega)]
    congr 1
    omega

/-- The bytes before the names of the fields of a record. -/
def recordWord (collection : Option String) (key : String) : List UInt8 :=
  [version, 3] ++ (collectionWord collection ++ escaped (asBytes key))

theorem field_word (collection : Option String) (key name : String) :
    (field collection key name).word =
      recordWord collection key ++ escaped (asBytes name) := by
  simp [word, body, family, recordWord]

theorem writes_recordFields (collection : Option String) (key : String) :
    IndexSink.Writes (writeRecordFields collection key) (recordWord collection key) :=
  (IndexSink.writes_raw [version, 3]).seq ((writes_collection collection).seq
    (writes_literal (asBytes key)))

theorem recordFieldsPrefixLen_eq_ok {n : Nat} :
    recordFieldsPrefixLen collection key = .ok n ↔
      (recordWord collection key).length < 2 ^ 64 ∧ n = (recordWord collection key).length :=
  measured_eq (writes_recordFields collection key)

theorem recordFieldsPrefix_eq_ok {out : List UInt8} :
    recordFieldsPrefix collection key = .ok out ↔
      (recordWord collection key).length < 2 ^ 64 ∧ out = recordWord collection key :=
  both_eq (writes_recordFields collection key)

theorem length_escapedPrefix (word : List UInt8) :
    (escapedPrefix word).length = word.length + (word.filter (· == 0)).length := by
  have whole := IndexSink.length_escaped word
  rw [escaped, length_append] at whole
  simpa using whole

theorem recordFieldNamePrefix_total (collection : Option String) (key pre : String)
    (sized : (recordWord collection key ++ escapedPrefix (asBytes pre)).length < 2 ^ 64) :
    recordFieldNamePrefixLen collection key pre =
        .ok (recordWord collection key ++ escapedPrefix (asBytes pre)).length ∧
      recordFieldNamePrefix collection key pre =
        .ok (recordWord collection key ++ escapedPrefix (asBytes pre)) := by
  rw [length_append] at sized
  have measured : recordFieldNamePrefixLen collection key pre =
      .ok (recordWord collection key ++ escapedPrefix (asBytes pre)).length := by
    rw [recordFieldNamePrefixLen, recordFieldsPrefixLen_eq_ok.mpr ⟨by omega, rfl⟩, ok_bind]
    dsimp only
    rw [length_escapedPrefix] at sized
    rw [check_bind_eq_ok, rejectIf_eq_ok, decide_eq_false_iff_not, length_append,
      length_escapedPrefix, Nat.add_assoc]
    exact ⟨by omega, rfl⟩
  refine ⟨measured, ?_⟩
  rw [recordFieldNamePrefix, measured, ok_bind]
  refine (written_eq ((writes_recordFields collection key).seq
    (writes_literalPrefix (asBytes pre)))).mpr ⟨?_, rfl⟩
  rw [length_append]
  exact sized

/-- The cells of the range of a prefix are those of the fields under it. -/
theorem StoredFields.in_range (stored : StoredFields cells collection key fields)
    {lower upper : List UInt8} (bound : recordFieldNamePrefix collection key pre = .ok lower)
    (next : prefixSuccessor lower = some upper) {bytes : List UInt8} :
    (cells[cell]? = some bytes ∧ Within lower upper cell) ↔
      ∃ name v, fields[name]? = some v ∧ startsWith name pre = true ∧
        (field collection key name).encode = .ok cell ∧ bytes = serialize v := by
  constructor
  · rintro ⟨found, inside⟩
    have initial := (within_iff_isPrefix next).mp inside
    rw [recordFieldNamePrefix_eq_ok bound] at initial
    obtain ⟨name, v, present, encoded⟩ := stored.only cell bytes found (by
      refine IsPrefix.trans ⟨escapedPrefix (asBytes pre), ?_⟩ initial
      simp)
    refine ⟨name, v, present, ((within_fields bound next encoded).mp inside).2.2, encoded, ?_⟩
    rw [stored.lookup encoded, present] at found
    exact (Option.some.inj found).symm
  · rintro ⟨name, v, present, below, encoded, rfl⟩
    refine ⟨?_, (within_fields bound next encoded).mpr ⟨rfl, rfl, below⟩⟩
    rw [stored.lookup encoded, present]
    rfl

/-- The cells between two bounds. -/
def inRange (cells : Cells) (lower upper : List UInt8) : List (List UInt8 × List UInt8) :=
  cells.toList.filter fun cell => decide (Within lower upper cell.1)

/-- The fields whose cells are among some cells. -/
def Among (collection : Option String) (key : String) (seen : List (List UInt8 × List UInt8))
    (name : String) : Prop :=
  ∃ cell ∈ seen, (QueueSourceKey.field collection key name).encode = .ok cell.1

theorem among_snoc {seen : List (List UInt8 × List UInt8)} {bytes : List UInt8}
    {name other : String} (encoded : (field collection key name).encode = .ok cell) :
    Among collection key (seen ++ [(cell, bytes)]) other ↔
      Among collection key seen other ∨ other = name := by
  constructor
  · rintro ⟨found, member, encoded'⟩
    rcases mem_append.mp member with earlier | last
    · exact .inl ⟨found, earlier, encoded'⟩
    · obtain rfl := mem_singleton.mp last
      cases encode_injective encoded' encoded
      exact .inr rfl
  · rintro (⟨found, earlier, encoded'⟩ | rfl)
    · exact ⟨found, mem_append_left _ earlier, encoded'⟩
    · exact ⟨(cell, bytes), by simp, encoded⟩

theorem blank_false_of_any {prefixes : BTreeSet String}
    (nonblank : ∀ pre ∈ prefixes, blank pre = false) : prefixes.toList.any blank = false := by
  rw [any_eq_false]
  intro pre member
  rw [nonblank pre (ExtTreeSet.mem_toList.mp member)]
  exact Bool.false_ne_true

theorem exceeds_ok (selects : Selects fields output.fields selected)
    (counted : fields.size ≤ expectedCount) : exceeds expectedCount output = .ok () := by
  rw [exceeds, rejectIf_eq_ok, decide_eq_false_iff_not, not_lt]
  exact le_trans selects.size_le counted

theorem mem_normalize (member : pre ∈ normalize prefixes.toList) : pre ∈ prefixes :=
  ExtTreeSet.mem_toList.mp (outermost_subset _ (normalize_eq prefixes.toList ▸ member))

/-- What is loaded after the kept names and the normalized prefixes. -/
structure Loaded (fields : Fields) (kept prefixes : BTreeSet String) (output : QueueSourceFields) :
    Prop where
  coverage : ∃ done : BTreeSet String, output.coverage = .selected kept done ∧
    ∀ pre, pre ∈ done ↔ pre ∈ normalize prefixes.toList
  fields : Selects fields output.fields fun name =>
    name ∈ kept ∨ ∃ pre ∈ normalize prefixes.toList, startsWith name pre = true

theorem declared_iff (members : ∀ name, name ∈ kept ↔ name ∈ names.toList ∧ ¬Below prefixes name)
    (name : String) :
    (name ∈ kept ∨ ∃ pre ∈ normalize prefixes.toList, startsWith name pre = true) ↔
      Declared names prefixes name := by
  rw [normalize_eq, covered_outermost_iff lexical_startsWith, members, Declared]
  simp only [Below, ExtTreeSet.mem_toList]
  tauto

theorem Loaded.covers_iff (loaded : Loaded fields kept prefixes output) (name : String) :
    output.coverage.covers name = true ↔
      name ∈ kept ∨ ∃ pre ∈ normalize prefixes.toList, startsWith name pre = true := by
  obtain ⟨done, coverage, members⟩ := loaded.coverage
  rw [coverage, FieldCoverage.covers, Bool.or_eq_true, ExtTreeSet.contains_iff_mem, any_eq_true]
  simp only [ExtTreeSet.mem_toList, members]

theorem Loaded.not_blank (loaded : Loaded fields kept prefixes output)
    (nonblank : ∀ pre ∈ prefixes, blank pre = false) : output.coverage.hasBlankPrefix = false := by
  obtain ⟨done, coverage, members⟩ := loaded.coverage
  rw [coverage]
  exact blank_false_of_any fun pre member => nonblank pre (mem_normalize ((members pre).mp member))

namespace Loadable

variable (source : Loadable cells collection key definition names prefixes fields expectedCount)

include source

theorem enough_lookupName (held : Nat) {name : String} (listed : name ∈ names)
    (fresh : output.fields[name]? = none) :
    ∃ next, Enough exhausted (fun free =>
        lookupName free cells collection key definition held output name) next ∧
      next.coverage = output.coverage ∧ next.fields[name]? = fields[name]? ∧
      ∀ other, other ≠ name → next.fields[other]? = output.fields[other]? := by
  have encoded : (field collection key name).encode =
      .ok (field collection key name).word :=
    encode_eq_ok.mpr ⟨trivial, source.sized.keys name listed, rfl⟩
  have measured := encodedLen_eq_ok.mpr
    ⟨(encode_eq_ok.mp encoded).1, source.sized.keys name listed, rfl⟩
  have found := source.stored.lookup encoded
  cases present : fields[name]? with
  | none =>
    rw [present] at found
    refine ⟨output, ?_, rfl, fresh, fun _ _ => rfl⟩
    refine bind (.of_eq fun _ => measured) ((enough_ownedBuffer _).bind
      (bind (.of_eq fun _ => encoded) (.of_eq fun _ => ?_)))
    rw [found]
    rfl
  | some v =>
    rw [present] at found
    obtain ⟨charged, runs⟩ := output.enough_retain (held +
      (field collection key name).word.length) (source.admitted name v present) fresh
      (source.sized.facts name v present).1
    refine ⟨_, bind (.of_eq fun _ => measured) ((enough_ownedBuffer _).bind
      (bind (.of_eq fun _ => encoded) (congr (fun _ => ?_) runs))), rfl,
      get_insert_self _ _ _, fun other differ => get_insert_ne _ _ differ.symm⟩
    rw [found]
    rfl

/-- The kept names are read, each from its own cell. -/
theorem enough_fillSelected (held : Nat) (empty : output.fields = ∅)
    (inside : ∀ name ∈ kept, name ∈ names) (coverage : output.coverage = .selected kept ∅) :
    ∃ result, Enough exhausted (fun free =>
        fillSelected free cells collection key definition held output) result ∧
      result.coverage = .selected kept ∅ ∧ Selects fields result.fields (· ∈ kept) := by
  have total := sum_le_of_subset (fun name => (asBytes name).length + sizeOfString) inside
  have bound := source.sized.listed
  have loop : ∀ start : QueueSourceFields, start.fields = ∅ → start.coverage = .selected kept ∅ →
      ∃ result, Enough exhausted (fun free => kept.toList.foldlM
          (lookupName free cells collection key definition held) start) result ∧
        result.coverage = .selected kept ∅ ∧ Selects fields result.fields (· ∈ kept.toList) := by
    intro start blank covers
    refine enough_foldlM (P := fun seen (result : QueueSourceFields) =>
      result.coverage = .selected kept ∅ ∧ Selects fields result.fields (· ∈ seen))
      ⟨covers, by simp, by simp [blank]⟩ ?_
    rintro seen name rest result whole ⟨covers, selects⟩
    have member : name ∈ kept := by
      rw [← ExtTreeSet.mem_toList, whole]
      simp
    have unseen : name ∉ seen := by
      have ascending := sorted_toList kept
      rw [whole] at ascending
      intro earlier
      exact lt_irrefl name ((pairwise_append.mp ascending).2.2 name earlier name
        mem_cons_self)
    obtain ⟨next, runs, same, here, elsewhere⟩ := source.enough_lookupName held
      (inside name member) (selects.2 name unseen)
    exact ⟨next, runs, same.trans covers, selects.step here elsewhere fun other => by simp⟩
  have shape : ∀ free, fillSelected free cells collection key definition held output =
      (kept.toList.foldlM (fun n name => do
        let n ← checkedSize (n + (asBytes name).length)
        checkedSize (n + sizeOfString)) 0) >>= fun n => output.charge free held n >>=
          fun output => kept.toList.foldlM (lookupName free cells collection key definition held)
            output := by
    intro free
    rw [fillSelected, coverage]
  have named := foldlM_names (l := kept.toList) (n := 0) (by omega)
  rw [Nat.zero_add] at named
  obtain ⟨result, runs, covers, loaded, unloaded⟩ := loop
    ⟨output.fields, output.coverage, output.charged +
      ((kept.toList.map fun name => (asBytes name).length + sizeOfString).sum * 4 + 1024)⟩
    empty coverage
  refine ⟨result, congr shape (bind (.of_eq fun _ => named)
    ((output.enough_charge held (by omega)).bind runs)), covers, ?_, ?_⟩
  · exact fun name member => loaded name (ExtTreeSet.mem_toList.mpr member)
  · exact fun name apart => unloaded name (mt ExtTreeSet.mem_toList.mp apart)

section

variable (held : Nat) {output : QueueSourceFields} {selected : String → Prop}
  (selects : Selects fields output.fields selected)

include held selects

theorem enough_visitField {name : String} (present : fields[name]? = some v)
    (below : startsWith name pre = true) (fresh : ¬selected name) :
    ∃ next, Enough exhausted (fun free => visitField free definition held
        (recordWord collection key) expectedCount pre output
        ((field collection key name).word, serialize v))
        next ∧
      next.coverage = output.coverage ∧
      Selects fields next.fields fun other => selected other ∨ other = name := by
  have suffix : (recordWord collection key).isPrefixOf?
      (field collection key name).word = some (escaped (asBytes name)) :=
    isPrefixOf?_eq_some_iff_append_eq.mpr (field_word collection key name).symm
  obtain ⟨fact, literal⟩ := source.sized.facts name v present
  obtain ⟨charged, runs⟩ := output.enough_retain
    (held + ((escaped (asBytes name)).length + sizeOfString)) (source.admitted name v present)
    (selects.2 name fresh) fact
  have next : Selects fields (output.fields.insert name v) fun other =>
      selected other ∨ other = name :=
    selects.step ((get_insert_self _ _ _).trans present.symm)
      (fun other differ => get_insert_ne _ _ differ.symm) fun _ => Iff.rfl
  refine ⟨⟨output.fields.insert name v, output.coverage, charged⟩,
    congr (fun free => by rw [visitField, suffix]) ?_, rfl, next⟩
  refine bind (.of_eq fun _ => checkedSize_eq_ok.mpr ⟨literal, rfl⟩)
    ((enough_ownedBuffer _).bind (bind
      (.of_eq fun _ => textLiteral_eq_ok.mpr rfl) ?_))
  exact bind (a := ()) (.of_eq fun _ => rejectIf_eq_ok.mpr (by simp [below]))
    (runs.bind (.of_eq fun _ => check_bind_eq_ok.mpr ⟨exceeds_ok next source.counted, rfl⟩))

/-- The fields of the cells of a range are loaded. -/
theorem enough_visitFields (fresh : ∀ name, startsWith name pre = true → ¬selected name)
    {lower upper : List UInt8} (bound : recordFieldNamePrefix collection key pre = .ok lower)
    (next : prefixSuccessor lower = some upper) :
    ∃ result, Enough exhausted (fun free =>
        (inRange cells lower upper).foldlM
          (visitField free definition held (recordWord collection key) expectedCount pre) output)
        result ∧
      result.coverage = output.coverage ∧
      Selects fields result.fields fun name => selected name ∨
        Among collection key (inRange cells lower upper) name := by
  refine enough_foldlM (P := fun seen (result : QueueSourceFields) =>
    result.coverage = output.coverage ∧ Selects fields result.fields fun name =>
      selected name ∨ Among collection key seen name)
    ⟨rfl, selects.congr fun name v _ => by simp [Among]⟩ ?_
  rintro seen ⟨cell, bytes⟩ rest result whole ⟨same, selects⟩
  have member : (cell, bytes) ∈ inRange cells lower upper := by
    rw [whole]
    simp
  obtain ⟨entry, inside⟩ := mem_filter.mp member
  obtain ⟨name, v, present, below, encoded, rfl⟩ := (source.stored.in_range bound next).mp
    ⟨(mem_toList_iff cells cell bytes).mp entry, by simpa using inside⟩
  -- the keys of the cells are distinct, so the field was not visited before
  have unseen : ¬Among collection key seen name := by
    rintro ⟨earlier, before, encoded'⟩
    have distinct : ((inRange cells lower upper).map Prod.fst).Nodup :=
      (keys_toList_nodup cells).sublist (filter_sublist.map _)
    rw [whole, map_append, map_cons, nodup_append] at distinct
    exact distinct.2.2 _ (mem_map_of_mem before) _ mem_cons_self
      (Except.ok.inj (encoded'.symm.trans encoded))
  obtain ⟨next, runs, same', selects'⟩ := source.enough_visitField held
    selects present below (not_or.mpr ⟨fresh name below, unseen⟩)
  have shape := (encode_eq_ok.mp encoded).2.2
  refine ⟨next, shape ▸ runs, same'.trans same, selects'.congr fun other w _ => ?_⟩
  rw [among_snoc encoded, or_assoc]

/-- All fields under a prefix are loaded, and the prefix is certified. -/
theorem enough_loadPrefix (listed : pre ∈ prefixes)
    (fresh : ∀ name, startsWith name pre = true → ¬selected name) :
    ∃ next, Enough exhausted (fun free => loadPrefix free cells collection key definition held
        (recordWord collection key) expectedCount output pre) next ∧
      (∀ kept done, output.coverage = .selected kept done →
        next.coverage = .selected kept (done.insert pre)) ∧
      Selects fields next.fields fun name => selected name ∨ startsWith name pre = true := by
  obtain ⟨bounds, length⟩ := source.sized.bounds pre listed
  have shape : [version, 3] ++ (collectionWord collection ++ (escaped (asBytes key) ++
      escapedPrefix (asBytes pre))) = recordWord collection key ++ escapedPrefix (asBytes pre) := by
    simp [recordWord]
  rw [shape] at bounds
  obtain ⟨measured, bound⟩ := recordFieldNamePrefix_total collection key pre (by omega)
  obtain ⟨upper, next⟩ := exists_prefixSuccessor
    (rfl : recordWord collection key ++ escapedPrefix (asBytes pre) = version :: _)
  obtain ⟨result, runs, same, loaded⟩ := source.enough_visitFields
    (held + (recordWord collection key ++ escapedPrefix (asBytes pre)).length * 2) selects fresh
    bound next
  have loaded' : Selects fields result.fields fun name =>
      selected name ∨ startsWith name pre = true := by
    refine loaded.congr fun name v present => or_congr_right ?_
    constructor
    · rintro ⟨⟨cell, bytes⟩, member, encoded⟩
      have inside := of_decide_eq_true (mem_filter.mp member).2
      exact ((within_fields bound next encoded).mp inside).2.2
    · intro below
      obtain ⟨cell, encoded, found⟩ := source.stored.present name v present
      refine ⟨(cell, serialize v), mem_filter.mpr
        ⟨(mem_toList_iff cells cell _).mpr found, decide_eq_true ?_⟩, encoded⟩
      exact (within_fields bound next encoded).mpr ⟨rfl, rfl, below⟩
  refine ⟨certify { result with charged := result.charged + ((asBytes pre).length * 4 + 1024) } pre,
    ?_, ?_, ?_⟩
  · refine bind (.of_eq fun _ => measured) (bind
      (.of_eq fun _ => checkedSize_eq_ok.mpr ⟨by omega, rfl⟩) ((enough_ownedBuffer _).bind
        (bind (.of_eq fun _ => bound) ?_)))
    refine congr (fun _ => by rw [next]) ?_
    exact runs.bind ((result.enough_charge _ length).bind (.of_eq fun _ => rfl))
  · intro kept done coverage
    rw [certify]
    dsimp only
    rw [same, coverage]
  · rw [certify]
    split <;> exact loaded'

end

section

variable (held : Nat) {output : QueueSourceFields} {kept : BTreeSet String}
  (bare : ∀ name ∈ kept, ¬Below prefixes name) (coverage : output.coverage = .selected kept ∅)
  (selects : Selects fields output.fields (· ∈ kept))

include held bare coverage selects

/-- The prefixes are loaded one after another, and none meets a loaded field again. -/
theorem enough_loadPrefixes :
    ∃ result, Enough exhausted (fun free => (normalize prefixes.toList).foldlM
        (loadPrefix free cells collection key definition held (recordWord collection key)
          expectedCount) output) result ∧ ∃ done : BTreeSet String,
      result.coverage = .selected kept done ∧
      (∀ pre, pre ∈ done ↔ pre ∈ normalize prefixes.toList) ∧
      Selects fields result.fields fun name =>
        name ∈ kept ∨ ∃ pre ∈ normalize prefixes.toList, startsWith name pre = true := by
  have apart := apart_outermost lexical_startsWith (sorted_toList prefixes)
  rw [← normalize_eq] at apart
  refine enough_foldlM (P := fun seen (result : QueueSourceFields) => ∃ done : BTreeSet String,
    result.coverage = .selected kept done ∧ (∀ pre, pre ∈ done ↔ pre ∈ seen) ∧
    Selects fields result.fields fun name =>
      name ∈ kept ∨ ∃ pre ∈ seen, startsWith name pre = true)
    ⟨∅, coverage, by simp, selects.congr fun name v _ => by simp⟩ ?_
  rintro seen pre rest result whole ⟨done, covers, members, loaded⟩
  have member : pre ∈ normalize prefixes.toList := by
    rw [whole]
    simp
  have fresh : ∀ name, startsWith name pre = true →
      ¬(name ∈ kept ∨ ∃ earlier ∈ seen, startsWith name earlier = true) := by
    rintro name below (old | ⟨earlier, before, covered⟩)
    · exact bare name old ⟨pre, mem_normalize member, below⟩
    · -- a name below both would put the later prefix below the earlier one
      rw [whole] at apart
      obtain ⟨less, outside⟩ := (pairwise_append.mp apart).2.2 earlier before pre
        mem_cons_self
      have inside := lexical_startsWith.between (le_of_lt less) (lexical_startsWith.le below)
        covered
      rw [outside] at inside
      cases inside
  obtain ⟨next, runs, certified, loaded'⟩ := source.enough_loadPrefix held loaded
    (mem_normalize member) fresh
  refine ⟨next, runs, done.insert pre, certified kept done covers, fun other => ?_,
    loaded'.congr fun name v _ => ?_⟩
  · rw [ExtTreeSet.mem_insert, compare_eq_iff_eq, members, mem_append, mem_singleton,
      or_comm, eq_comm]
  · simp [or_assoc, or_and_right, exists_or]

/-- After the kept names the prefixes are read, if there are any. -/
theorem enough_finish :
    ∃ result, Enough exhausted (fun free => if (normalize prefixes.toList).isEmpty then do
          exceeds expectedCount output
          .ok output
        else do
          let recordLen ← recordFieldsPrefixLen collection key
          ownedBuffer free (held + output.charged + recordLen)
          let recordPrefix ← recordFieldsPrefix collection key
          let output ← (normalize prefixes.toList).foldlM (loadPrefix free cells collection key
            definition (held + recordLen) recordPrefix expectedCount) output
          exceeds expectedCount output
          .ok output) result ∧
      Loaded fields kept prefixes result := by
  have counts : ∀ {result : QueueSourceFields} {selected : String → Prop},
      Selects fields result.fields selected → Enough exhausted (fun _ => do
        exceeds expectedCount result
        .ok result) result := fun selects =>
    .of_eq fun _ => check_bind_eq_ok.mpr ⟨exceeds_ok selects source.counted, rfl⟩
  by_cases none : (normalize prefixes.toList).isEmpty = true
  · have empty := isEmpty_iff.mp none
    refine ⟨output, congr (fun _ => if_pos none) (counts selects),
      ⟨∅, coverage, by simp [empty]⟩, selects.congr fun name v _ => by simp [empty]⟩
  · obtain ⟨pre, member⟩ := exists_mem_of_ne_nil _ (mt isEmpty_iff.mpr none)
    have bounds := (source.sized.bounds pre (mem_normalize member)).1
    have record : (recordWord collection key).length < 2 ^ 64 := by
      simp only [recordWord, length_append] at bounds ⊢
      omega
    obtain ⟨result, loading, done, covers, certified, loaded⟩ := source.enough_loadPrefixes
      (held + (recordWord collection key).length) bare coverage selects
    refine ⟨result, congr (fun _ => if_neg none) ?_, ⟨done, covers, certified⟩, loaded⟩
    exact bind (.of_eq fun _ => recordFieldsPrefixLen_eq_ok.mpr ⟨record, rfl⟩)
      ((enough_ownedBuffer _).bind (bind
        (.of_eq fun _ => recordFieldsPrefix_eq_ok.mpr ⟨record, rfl⟩)
        (loading.bind (counts loaded))))

end

/-- The loader reads what is declared. -/
theorem enough_loadSelectedFields (nonblank : ∀ pre ∈ prefixes, blank pre = false) :
    ∃ output kept, Enough exhausted (fun free => loadSelectedFields free cells collection key
        definition expectedCount names prefixes) output ∧
      (∀ name, name ∈ kept ↔ name ∈ names.toList ∧ ¬Below prefixes name) ∧
      Loaded fields kept prefixes output := by
  have slots := source.sized.slots
  have short : ∀ name ∈ names, (asBytes name).length * 4 + 1024 < 2 ^ 64 := by
    intro name member
    have listed := source.sized.listed
    have one := single_le_sum (l := names.toList.map fun name =>
      (asBytes name).length + sizeOfString) (by simp) _
      (mem_map_of_mem (ExtTreeSet.mem_toList.mpr member))
    omega
  obtain ⟨collected, collecting, untouched, kept, coverage, members⟩ := enough_selectNames
    (prefixes.size * sizeOfStr + sizeOfVec) names prefixes
    ⟨∅, .selected ∅ ∅, sizeOfFields + 1024⟩ rfl short
  obtain ⟨filled, filling, coverage, selects⟩ := source.enough_fillSelected
    (prefixes.size * sizeOfStr + sizeOfVec) untouched
    (fun name member => ExtTreeSet.mem_toList.mp ((members name).mp member).1) coverage
  obtain ⟨output, loading, loaded⟩ := source.enough_finish
    (prefixes.size * sizeOfStr + sizeOfVec) (fun name member => ((members name).mp member).2)
    coverage selects
  refine ⟨output, kept, bind (a := ()) (.of_eq fun _ => rejectIf_eq_ok.mpr
    (blank_false_of_any nonblank)) ((enough_ownedBuffer _).bind ?_), members, loaded⟩
  refine bind (.of_eq fun _ => checkedSize_eq_ok.mpr ⟨by omega, rfl⟩)
    (bind (.of_eq fun _ => checkedSize_eq_ok.mpr ⟨slots, rfl⟩) ?_)
  exact (enough_ownedBuffer _).bind (collecting.bind (filling.bind loading))

end Loadable

/-- Exactly the declared fields are loaded, and the view of what was loaded answers for exactly the
declared names and the present ones. -/
theorem selected_fields_exact {expectedCount : Nat}
    (stored : StoredFields cells collection key fields)
    (admitted : ∀ name v, fields[name]? = some v → definition.validateValue name v = .ok ())
    (sized : Sized collection key names prefixes fields)
    (nonblank : ∀ pre ∈ prefixes, blank pre = false) (counted : expectedCount = fields.size) :
    ∃ output,
      (∃ enough, ∀ free ≥ enough, loadSelectedFields free cells collection key definition
        expectedCount names prefixes = .ok output) ∧
      (∀ free, loadSelectedFields free cells collection key definition expectedCount names
        prefixes ≠ .error (fieldsUnknown "duplicate field fact")) ∧
      (∀ name, Declared names prefixes name → output.fields[name]? = fields[name]?) ∧
      (∀ name, ¬Declared names prefixes name → output.fields[name]? = none) ∧
      ∃ view, CheckedFields.new output.fields output.coverage = .ok view ∧
        ∀ name, (∃ answer, view.get name = .ok answer) ↔
          Declared names prefixes name ∨ name ∈ output.fields := by
  obtain ⟨output, kept, ⟨either, enough⟩, members, loaded⟩ := Loadable.enough_loadSelectedFields
    ⟨stored, admitted, sized, le_of_eq counted.symm⟩ nonblank
  have selects : Selects fields output.fields (Declared names prefixes) :=
    loaded.fields.congr fun name v _ => declared_iff members name
  refine ⟨output, enough, fun free refused => ?_, selects.1, selects.2,
    ⟨output.fields, output.coverage⟩, check_bind_eq_ok.mpr
      ⟨rejectIf_eq_ok.mpr (loaded.not_blank nonblank), rfl⟩, fun name => ?_⟩
  · rcases either free with passed | short
    · cases passed.symm.trans refused
    · exact absurd (Except.error.inj (short.symm.trans refused)) (by decide)
  · rw [← declared_iff members, ← loaded.covers_iff, mem_iff_get, CheckedFields.get]
    cases present : output.fields[name]? with
    | some v => simp
    | none => by_cases covered : output.coverage.covers name = true <;> simp [covered]

end Phases

/-- A number and a free field. -/
def twoFields : Fields :=
  ((∅ : Fields).insert "bag/v" (.integer 1)).insert "n" (.integer 7)

/-- Their cells. -/
def twoCells : Cells :=
  ((∅ : Cells).insert (QueueSourceKey.field none "k" "bag/v").word
    (serialize (FieldValue.integer 1))).insert (QueueSourceKey.field none "k" "n").word
    (serialize (FieldValue.integer 7))

theorem get_twoFields {name : String} :
    twoFields[name]? = some v ↔
      name = "n" ∧ v = .integer 7 ∨ name = "bag/v" ∧ v = .integer 1 := by
  rw [twoFields, get_insert, get_insert]
  by_cases number : "n" = name
  · subst number
    simp [eq_comm]
  · by_cases free : "bag/v" = name
    · subst free
      simp [eq_comm]
    · simp [number, free, Ne.symm number, Ne.symm free]

theorem encode_twoFields {name : String} (member : name = "n" ∨ name = "bag/v") :
    (field none "k" name).encode =
      .ok (field none "k" name).word := by
  refine encode_eq_ok.mpr ⟨trivial, ?_, rfl⟩
  rcases member with rfl | rfl <;> decide

theorem stored_twoFields : StoredFields twoCells none "k" twoFields where
  present name v present := by
    rcases get_twoFields.mp present with ⟨rfl, rfl⟩ | ⟨rfl, rfl⟩
    · exact ⟨_, encode_twoFields (.inl rfl), get_insert_self _ _ _⟩
    · refine ⟨_, encode_twoFields (.inr rfl), ?_⟩
      rw [twoCells, get_insert_ne _ _ (by decide)]
      exact get_insert_self _ _ _
  only cell bytes found initial := by
    rw [twoCells, get_insert, get_insert] at found
    split_ifs at found with number free
    · exact ⟨"n", .integer 7, get_twoFields.mpr (by simp), number ▸ encode_twoFields (.inl rfl)⟩
    · exact ⟨"bag/v", .integer 1, get_twoFields.mpr (by simp),
        free ▸ encode_twoFields (.inr rfl)⟩
    · simp at found

theorem forall_mem_of_toList {set : BTreeSet String} {p : String → Prop}
    (each : ∀ name ∈ set.toList, p name) : ∀ name ∈ set, p name :=
  fun name member => each name (ExtTreeSet.mem_toList.mpr member)

theorem sized_twoFields : Sized none "k" (.ofList ["bag/v", "n", "m"]) (.ofList ["bag/", "bag/v"])
    twoFields where
  listed := by decide +kernel
  keys := forall_mem_of_toList (by decide +kernel)
  slots := by decide +kernel
  bounds := forall_mem_of_toList (by decide +kernel)
  facts name v present := by
    rcases get_twoFields.mp present with ⟨rfl, rfl⟩ | ⟨rfl, rfl⟩ <;> decide +kernel

/-- A name that is also below two nested prefixes, a bare name and an absent name. -/
theorem selected_fields_exact_nested : ∃ output,
    (∃ enough, ∀ free ≥ enough, loadSelectedFields free twoCells none "k" numbered.work 2
      (.ofList ["bag/v", "n", "m"]) (.ofList ["bag/", "bag/v"]) = .ok output) ∧
    output.fields["bag/v"]? = some (.integer 1) ∧ output.fields["n"]? = some (.integer 7) ∧
    ∃ view, CheckedFields.new output.fields output.coverage = .ok view ∧
      ∃ answer, view.get "m" = .ok answer := by
  have listed : ∀ name ∈ ["bag/v", "n", "m"],
      Declared (.ofList ["bag/v", "n", "m"]) (.ofList ["bag/", "bag/v"]) name :=
    fun name member => .inl (by
      revert name
      decide +kernel)
  have admitted : ∀ name v, twoFields[name]? = some v →
      numbered.work.validateValue name v = .ok () := by
    intro name v present
    rcases get_twoFields.mp present with ⟨rfl, rfl⟩ | ⟨rfl, rfl⟩ <;> decide +kernel
  obtain ⟨output, enough, -, present, -, view, checked, answers⟩ := selected_fields_exact
    stored_twoFields admitted sized_twoFields (forall_mem_of_toList (by decide +kernel)) rfl
  refine ⟨output, enough, ?_, ?_, view, checked, (answers "m").mpr (.inl (listed _ (by simp)))⟩
  · rw [present _ (listed _ (by simp)), get_twoFields]
    simp
  · rw [present _ (listed _ (by simp)), get_twoFields]
    simp

end QueueSourceIndex
