import Fireweed.Priorities
import Fireweed.SerdeJson

/-!
# Metadata as JSON

Structured metadata, its natural JSON form and the decoder, which also accepts the
wrapper and the tagged values of earlier releases. The decoder tells the forms
apart by the keys of an object, so metadata with such keys is read as something
else.
-/

namespace Domain

open ByteOrder Checked SerdeJson

/-! ## Values -/

/-- The members of an object are in ascending order of their keys. -/
inductive MetadataValue where
  | null
  | bool (b : Bool)
  | integer (n : Int64)
  | number (d : DecimalValue)
  | string (s : String)
  | array (items : List MetadataValue)
  | object (entries : List (String × MetadataValue))

namespace MetadataValue

inductive WellFormed : MetadataValue → Prop where
  | null : WellFormed .null
  | bool (b : Bool) : WellFormed (.bool b)
  | integer (n : Int64) : WellFormed (.integer n)
  | number (d : DecimalValue) : WellFormed (.number d)
  | string (s : String) : WellFormed (.string s)
  | array {items : List MetadataValue} (each : ∀ v ∈ items, WellFormed v) :
      WellFormed (.array items)
  | object {entries : List (String × MetadataValue)} (sorted : Ascending entries)
      (each : ∀ entry ∈ entries, WellFormed entry.2) : WellFormed (.object entries)

end MetadataValue

structure Metadata where
  entries : List (String × MetadataValue)
  sorted : Ascending entries
  each : ∀ entry ∈ entries, entry.2.WellFormed

/-! ## Encoding -/

section Encoding

-- How the reader of JSON text rounds an integer that no 64-bit type holds.
variable (round : Int → { x : QueueContract.F64 // x.isFinite = true })

/-- An integer as it is read back from JSON text. -/
def jsonInteger (n : Int) : Number :=
  if 0 ≤ n ∧ n < 2 ^ 64 then .posInt (UInt64.ofNat n.toNat)
  else if negative : Int64.ofInt n < 0 ∧ -2 ^ 63 ≤ n ∧ n < 0 then .negInt (Int64.ofInt n) negative.1
  else .float (round n).1 (round n).2

mutual

def MetadataValue.toJson : MetadataValue → Value
  | .null => .null
  | .bool b => .bool b
  | .integer n => .number (jsonInteger round n.toInt)
  | .number d => .object [("mantissa", .number (jsonInteger round d.mantissa)),
      ("scale", .number (jsonInteger round d.scale.toNat))]
  | .string s => .string s
  | .array items => .array (jsonItems items)
  | .object entries => .object (jsonMembers entries)

def jsonItems : List MetadataValue → List Value
  | [] => []
  | item :: rest => item.toJson :: jsonItems rest

def jsonMembers : List (String × MetadataValue) → List (String × Value)
  | [] => []
  | (key, value) :: rest => (key, value.toJson) :: jsonMembers rest

end

def Metadata.toJson (metadata : Metadata) : Value := .object (jsonMembers round metadata.entries)

end Encoding

/-! ## Decoding -/

/-- The derived reader of a decimal, from an object or from a pair. Its error text is left out. -/
def decimalOf (mantissa scale : Value) : Option DecimalValue :=
  match mantissa, scale with
  | .number m, .number s =>
    match m.asInt, s.asInt with
    | some m, some s =>
      if range : -2 ^ 127 ≤ m ∧ m < 2 ^ 127 then
        if 0 ≤ s ∧ s < 2 ^ 32 then some ⟨m, UInt32.ofNat s.toNat, range.1, range.2⟩ else none
      else none
    | _, _ => none
  | _, _ => none

def decimalFromJson : Value → Option DecimalValue
  | .array [mantissa, scale] => decimalOf mantissa scale
  | .object members =>
    match members.lookup "mantissa", members.lookup "scale" with
    | some mantissa, some scale => decimalOf mantissa scale
    | _, _ => none
  | _ => none

/-- The members that are read: those of the wrapper of earlier releases if it is one. An entry
under that key is removed from the map before its type is seen. -/
def unwrapped : List (String × Value) → List (String × Value)
  | [(key, value)] =>
    if key = "entries" then
      match value with
      | .object entries => entries
      | _ => []
    else [(key, value)]
  | members => members

def naturalDecimal (members : List (String × Value)) : Bool :=
  members.length == 2 && (members.any fun member => member.1 == "mantissa") &&
    members.any fun member => member.1 == "scale"

def numberFromJson (n : Number) : Except String MetadataValue :=
  match n.asI64 with
  | some i => .ok (.integer i)
  | none =>
    match n.asU64 with
    | some u =>
      if u.toNat ≤ 2 ^ 63 - 1 then .ok (.integer u.toInt64)
      else .error "metadata integer exceeds i64"
    | none => .error "metadata number must be an integer or decimal object"

theorem sizeOf_unwrapped (members : List (String × Value)) :
    sizeOf (unwrapped members) ≤ sizeOf members := by
  fun_cases unwrapped members
  all_goals simp
  omega

mutual

def metadataFromJsonValue (value : Value) : Except String (List (String × MetadataValue)) :=
  match value with
  | .object members => fromMembers (unwrapped members)
  | other => .error ("metadata must be a JSON object, got " ++ other.kind)
termination_by (sizeOf value, 0)
decreasing_by
  have smaller := sizeOf_unwrapped members
  simp_wf
  omega

def metadataValueFromJson (value : Value) : Except String MetadataValue :=
  match value with
  | .object [("Null", _)] => .ok .null
  | .object [("Bool", inner)] =>
    match inner with
    | .bool b => .ok (.bool b)
    | _ => .error "legacy Bool tag requires bool"
  | .object [("Integer", inner)] =>
    match inner with
    | .number n => n.asI64.elim (.error "legacy Integer out of i64 range") fun i => .ok (.integer i)
    | _ => .error "legacy Integer tag requires number"
  | .object [("Number", inner)] =>
    (decimalFromJson inner).elim (.error "legacy Number") fun d => .ok (.number d)
  | .object [("String", inner)] =>
    match inner with
    | .string s => .ok (.string s)
    | _ => .error "legacy String tag requires string"
  | .object [("Array", inner)] =>
    match inner with
    | .array items => (fromItems items).map .array
    | _ => .error "legacy Array tag requires array"
  | .object [("Object", inner)] => (metadataFromJsonValue inner).map .object
  | .object members =>
    if naturalDecimal members then
      (decimalFromJson (.object members)).elim (.error "decimal metadata value") fun d =>
        .ok (.number d)
    else (metadataFromJsonValue (.object members)).map .object
  | .null => .ok .null
  | .bool b => .ok (.bool b)
  | .number n => numberFromJson n
  | .string s => .ok (.string s)
  | .array items => (fromItems items).map .array
termination_by (sizeOf value, 1)

def fromItems (items : List Value) : Except String (List MetadataValue) :=
  match items with
  | [] => .ok []
  | item :: rest => do
    let value ← metadataValueFromJson item
    let values ← fromItems rest
    .ok (value :: values)
termination_by (sizeOf items, 0)

def fromMembers (members : List (String × Value)) :
    Except String (List (String × MetadataValue)) :=
  match members with
  | [] => .ok []
  | (key, value) :: rest => do
    let decoded ← metadataValueFromJson value
    let entries ← fromMembers rest
    .ok ((key, decoded) :: entries)
termination_by (sizeOf members, 0)

end

/-! ## What survives -/

/-- The tags of the values of earlier releases. -/
def legacyTags : List String := ["Null", "Bool", "Integer", "Number", "String", "Array", "Object"]

/-- The decoder takes an object with these keys for another form. -/
def Ambiguous (keys : List String) : Prop :=
  keys = ["entries"] ∨ (∃ tag ∈ legacyTags, keys = [tag]) ∨
    keys.length = 2 ∧ "mantissa" ∈ keys ∧ "scale" ∈ keys

mutual

/-- No nested object has the keys of another form, and mantissas fit a 64-bit type. -/
def MetadataValue.Natural : MetadataValue → Prop
  | .null | .bool _ | .integer _ | .string _ => True
  | .number d => -2 ^ 63 ≤ d.mantissa ∧ d.mantissa < 2 ^ 64
  | .array items => NaturalItems items
  | .object entries => ¬Ambiguous (entries.map Prod.fst) ∧ NaturalEntries entries

def NaturalItems : List MetadataValue → Prop
  | [] => True
  | item :: rest => item.Natural ∧ NaturalItems rest

def NaturalEntries : List (String × MetadataValue) → Prop
  | [] => True
  | (_, value) :: rest => value.Natural ∧ NaturalEntries rest

end

/-- The metadata is not taken for the wrapper, and its values are natural. -/
def Metadata.Natural (metadata : Metadata) : Prop :=
  metadata.entries.map Prod.fst ≠ ["entries"] ∧ NaturalEntries metadata.entries

variable (round : Int → { x : QueueContract.F64 // x.isFinite = true })

theorem asInt_jsonInteger {n : Int} (lower : -2 ^ 63 ≤ n) (upper : n < 2 ^ 64) :
    (jsonInteger round n).asInt = some n := by
  unfold jsonInteger
  by_cases nonneg : 0 ≤ n
  · rw [if_pos ⟨nonneg, upper⟩, Number.asInt, UInt64.toNat_ofNat_of_lt' (by
      simp [UInt64.size]; omega)]
    congr 1
    omega
  · have small : (Int64.ofInt n).toInt = n := Int64.toInt_ofInt_of_le lower (by omega)
    have negative : Int64.ofInt n < 0 := by
      rw [Int64.lt_iff_toInt_lt, small]
      exact Int.not_le.mp nonneg
    rw [if_neg (by omega), dif_pos ⟨negative, lower, by omega⟩, Number.asInt, small]

theorem numberFromJson_integer (n : Int64) :
    numberFromJson (jsonInteger round n.toInt) = .ok (.integer n) := by
  have lower : -2 ^ 63 ≤ n.toInt := n.le_toInt
  have upper := n.toInt_lt
  have read : (jsonInteger round n.toInt).asI64 = some n := by
    unfold jsonInteger
    by_cases nonneg : 0 ≤ n.toInt
    · have size : (UInt64.ofNat n.toInt.toNat).toNat = n.toInt.toNat :=
        UInt64.toNat_ofNat_of_lt' (by rw [UInt64.size]; omega)
      rw [if_pos ⟨nonneg, by omega⟩, Number.asI64, size, if_pos (by omega)]
      congr 1
      have bits := toInt_eq (UInt64.ofNat n.toInt.toNat).toInt64
      rw [UInt64.toUInt64_toInt64, size, if_pos (by omega)] at bits
      exact Int64.toInt_inj.mp (by omega)
    · have negative : n < 0 := by
        rw [Int64.lt_iff_toInt_lt]
        exact Int.not_le.mp nonneg
      rw [if_neg (by omega), dif_pos ⟨by rwa [Int64.ofInt_toInt], by omega, by omega⟩]
      rw [Number.asI64, Int64.ofInt_toInt]
  rw [numberFromJson, read]

theorem decimalOf_json {d : DecimalValue} (lower : -2 ^ 63 ≤ d.mantissa)
    (upper : d.mantissa < 2 ^ 64) :
    decimalOf (.number (jsonInteger round d.mantissa))
      (.number (jsonInteger round d.scale.toNat)) = some d := by
  have scale := d.scale.toNat_lt
  simp only [decimalOf, asInt_jsonInteger round lower upper,
    asInt_jsonInteger round (n := d.scale.toNat) (by omega) (by omega)]
  rw [dif_pos ⟨d.lower, d.upper⟩, if_pos ⟨by omega, by omega⟩]
  simp

theorem decimalOf_wide {n : Int} (wide : ¬(-2 ^ 63 ≤ n ∧ n < 2 ^ 64)) (scale : Value) :
    decimalOf (.number (jsonInteger round n)) scale = none := by
  have float : (jsonInteger round n).asInt = none := by
    rw [jsonInteger, if_neg (by omega), dif_neg (by omega), Number.asInt]
  cases scale <;> simp [decimalOf, float]

theorem jsonMembers_keys (entries : List (String × MetadataValue)) :
    (jsonMembers round entries).map Prod.fst = entries.map Prod.fst := by
  induction entries with
  | nil => rfl
  | cons entry rest ih => simp [jsonMembers, ih]

theorem unwrapped_of_keys {members : List (String × Value)}
    (plain : members.map Prod.fst ≠ ["entries"]) : unwrapped members = members := by
  fun_cases unwrapped members <;> simp_all

theorem naturalDecimal_iff {members : List (String × Value)} :
    naturalDecimal members = true ↔ (members.map Prod.fst).length = 2 ∧
      "mantissa" ∈ members.map Prod.fst ∧ "scale" ∈ members.map Prod.fst := by
  simp [naturalDecimal, and_assoc]

/-- An object without the keys of another form is read member by member. -/
theorem metadataValueFromJson_object {members : List (String × Value)}
    (plain : ¬Ambiguous (members.map Prod.fst)) :
    metadataValueFromJson (.object members) = (fromMembers members).map .object := by
  have keep : members.map Prod.fst ≠ ["entries"] := fun same => plain (.inl same)
  have untagged : ∀ tag ∈ legacyTags, ∀ inner, members ≠ [(tag, inner)] := by
    rintro tag listed inner rfl
    exact plain (.inr (.inl ⟨tag, listed, rfl⟩))
  have whole : ¬naturalDecimal members = true := fun natural =>
    plain (.inr (.inr (naturalDecimal_iff.mp natural)))
  rw [metadataValueFromJson, if_neg whole, metadataFromJsonValue,
    unwrapped_of_keys keep]
  all_goals exact fun inner same => untagged _ (by decide) inner same

/-- An object with the two keys of a decimal is read as one. -/
theorem metadataValueFromJson_decimal (mantissa scale : Value) :
    metadataValueFromJson (.object [("mantissa", mantissa), ("scale", scale)]) =
      (decimalOf mantissa scale).elim (.error "decimal metadata value")
        fun d => .ok (.number d) := by
  rw [metadataValueFromJson]
  · rfl
  all_goals simp

/-! ### Nesting

What is read is nested no deeper than the document. Where an object is taken for another form it is
nested less deep, so the object is not read back.
-/

theorem depthMembers_unwrapped (members : List (String × Value)) :
    Value.depthMembers (unwrapped members) ≤ Value.depthMembers members := by
  fun_cases unwrapped members <;> simp [Value.depthMembers, Value.depth]

theorem decimalFromJson_depth {value : Value} {d : DecimalValue}
    (read : decimalFromJson value = some d) : 1 ≤ value.depth := by
  cases value with
  | array | object => simp [Value.depth]
  | null | bool | number | string => simp [decimalFromJson] at read

theorem elim_eq_ok {α β : Type} {o : Option α} {e : String} {f : α → β} {b : β} :
    (o.elim (.error e) fun a => Except.ok (f a)) = .ok b ↔ ∃ a, o = some a ∧ f a = b := by
  cases o <;> simp

theorem depth_number (d : DecimalValue) : ((MetadataValue.number d).toJson round).depth = 1 := by
  simp [MetadataValue.toJson, Value.depth, Value.depthMembers]

section Depth

/-- What is read from a document is nested no deeper than the document. -/
def Shallow (value : Value) : Prop :=
  ∀ v, metadataValueFromJson value = .ok v → (v.toJson round).depth ≤ value.depth

variable {round}

theorem fromItems_depth {items : List Value} (each : ∀ item ∈ items, Shallow round item)
    {values : List MetadataValue} (read : fromItems items = .ok values) :
    Value.depthItems (jsonItems round values) ≤ Value.depthItems items := by
  induction items generalizing values with
  | nil =>
    rw [fromItems] at read
    cases read
    rw [jsonItems]
  | cons item rest ih =>
    rw [fromItems] at read
    obtain ⟨value, first, read⟩ := bind_eq_ok.mp read
    obtain ⟨values, others, read⟩ := bind_eq_ok.mp read
    cases read
    obtain ⟨head, tail⟩ := List.forall_mem_cons.mp each
    rw [jsonItems, Value.depthItems, Value.depthItems]
    exact max_le_max (head value first) (ih tail others)

theorem fromMembers_depth {members : List (String × Value)}
    (each : ∀ member ∈ members, Shallow round member.2) {entries : List (String × MetadataValue)}
    (read : fromMembers members = .ok entries) :
    Value.depthMembers (jsonMembers round entries) ≤ Value.depthMembers members := by
  induction members generalizing entries with
  | nil =>
    rw [fromMembers] at read
    cases read
    rw [jsonMembers]
  | cons member rest ih =>
    rw [fromMembers] at read
    obtain ⟨decoded, first, read⟩ := bind_eq_ok.mp read
    obtain ⟨entries, others, read⟩ := bind_eq_ok.mp read
    cases read
    obtain ⟨head, tail⟩ := List.forall_mem_cons.mp each
    rw [jsonMembers, Value.depthMembers, Value.depthMembers]
    exact max_le_max (head decoded first) (ih tail others)

theorem metadataFromJsonValue_depth {value : Value}
    (each : ∀ other, sizeOf other < sizeOf value → Shallow round other)
    {entries : List (String × MetadataValue)} (read : metadataFromJsonValue value = .ok entries) :
    Value.depthMembers (jsonMembers round entries) < value.depth := by
  cases value with
  | object members =>
    rw [metadataFromJsonValue] at read
    have shallow := fromMembers_depth (fun member inside => each member.2 (by
      have within := List.sizeOf_lt_of_mem inside
      have smaller := sizeOf_unwrapped members
      have second : sizeOf member.2 < sizeOf member := by cases member; simp
      simp only [Value.object.sizeOf_spec]
      omega)) read
    have wrapper := depthMembers_unwrapped members
    rw [Value.depth]
    omega
  | null | bool | number | string | array => simp [metadataFromJsonValue] at read

theorem shallow (value : Value) : Shallow round value := by
  induction size : sizeOf value using Nat.strong_induction_on generalizing value with
  | _ n ih =>
    subst size
    have inner : ∀ other, sizeOf other < sizeOf value → Shallow round other :=
      fun other smaller => ih _ smaller other rfl
    clear ih
    intro v read
    rw [metadataValueFromJson.eq_def] at read
    split at read
    · cases read
      simp [MetadataValue.toJson, Value.depth]
    · split at read <;> cases read
      simp [MetadataValue.toJson, Value.depth]
    · split at read
      · obtain ⟨n, -, rfl⟩ := elim_eq_ok.mp read
        simp [MetadataValue.toJson, Value.depth]
      · cases read
    · obtain ⟨d, decimal, rfl⟩ := elim_eq_ok.mp read
      have nested := decimalFromJson_depth decimal
      simp only [depth_number, Value.depth, Value.depthMembers]
      omega
    · split at read <;> cases read
      simp [MetadataValue.toJson, Value.depth]
    · split at read
      · next items =>
        obtain ⟨values, each, rfl⟩ := map_eq_ok.mp read
        have nested := fromItems_depth (fun item inside => inner item (by
          have within := List.sizeOf_lt_of_mem inside
          simp
          omega)) each
        simp only [MetadataValue.toJson, Value.depth, Value.depthMembers]
        omega
      · cases read
    · next document =>
      obtain ⟨entries, each, rfl⟩ := map_eq_ok.mp read
      have nested := metadataFromJsonValue_depth (fun other smaller => inner other (by
        simp
        omega)) each
      simp only [MetadataValue.toJson, Value.depth, Value.depthMembers]
      omega
    · split at read
      · obtain ⟨d, -, rfl⟩ := elim_eq_ok.mp read
        simp [depth_number, Value.depth]
      · obtain ⟨entries, each, rfl⟩ := map_eq_ok.mp read
        rw [MetadataValue.toJson, Value.depth]
        exact metadataFromJsonValue_depth inner each
    · cases read
      simp [MetadataValue.toJson, Value.depth]
    · cases read
      simp [MetadataValue.toJson, Value.depth]
    · rw [numberFromJson] at read
      split at read
      · cases read
        simp [MetadataValue.toJson, Value.depth]
      · split at read
        · split at read <;> cases read
          simp [MetadataValue.toJson, Value.depth]
        · cases read
    · cases read
      simp [MetadataValue.toJson, Value.depth]
    · next items =>
      obtain ⟨values, each, rfl⟩ := map_eq_ok.mp read
      simp only [MetadataValue.toJson, Value.depth, Nat.add_le_add_iff_right]
      exact fromItems_depth (fun item inside => inner item (by
        have within := List.sizeOf_lt_of_mem inside
        simp
        omega)) each

/-- An entry under the key of the wrapper is not read back. -/
theorem metadataFromJsonValue_wrapper (x : MetadataValue) :
    metadataFromJsonValue (.object (jsonMembers round [("entries", x)])) ≠
      .ok [("entries", x)] := by
  intro read
  rw [metadataFromJsonValue, jsonMembers, jsonMembers] at read
  cases document : x.toJson round with
  | object inner =>
    rw [document] at read
    have nested := fromMembers_depth (fun member _ => @shallow round member.2) read
    simp only [unwrapped, jsonMembers, Value.depthMembers, document, Value.depth] at nested
    simp at nested
  | null | bool | number | string | array =>
    rw [document] at read
    simp [unwrapped, fromMembers] at read

theorem metadataValueFromJson_wrapper (value : Value) :
    metadataValueFromJson (.object [("entries", value)]) =
      (metadataFromJsonValue (.object [("entries", value)])).map .object := by
  rw [metadataValueFromJson, if_neg (by simp [naturalDecimal])]
  all_goals simp

theorem metadataValueFromJson_naturalDecimal {members : List (String × Value)}
    (natural : naturalDecimal members = true) :
    metadataValueFromJson (.object members) =
      (decimalFromJson (.object members)).elim (.error "decimal metadata value") fun d =>
        .ok (.number d) := by
  have single : ∀ tag inner, members ≠ [(tag, inner)] := by
    rintro tag inner rfl
    simp [naturalDecimal] at natural
  rw [metadataValueFromJson, if_pos natural]
  all_goals exact fun inner => single _ inner

/-- Of the tagged forms only that of an object is read as one. -/
theorem metadataFromJsonValue_of_tagged {tag : String} (listed : tag ∈ legacyTags) {inner : Value}
    {entries : List (String × MetadataValue)}
    (read : metadataValueFromJson (.object [(tag, inner)]) = .ok (.object entries)) :
    metadataFromJsonValue inner = .ok entries := by
  rw [metadataValueFromJson.eq_def] at read
  split at read
  · cases read
  · split at read <;> cases read
  · split at read
    · obtain ⟨n, -, same⟩ := elim_eq_ok.mp read
      cases same
    · cases read
  · obtain ⟨d, -, same⟩ := elim_eq_ok.mp read
    cases same
  · split at read <;> cases read
  · split at read
    · obtain ⟨values, -, same⟩ := map_eq_ok.mp read
      cases same
    · cases read
  · next same =>
    cases same
    obtain ⟨entries, read, same⟩ := map_eq_ok.mp read
    cases same
    exact read
  · next notNull notBool notInteger notNumber notString notArray notObject same =>
    cases same
    simp only [legacyTags, List.mem_cons, List.not_mem_nil, or_false] at listed
    rcases listed with rfl | rfl | rfl | rfl | rfl | rfl | rfl
    · exact absurd rfl (notNull inner)
    · exact absurd rfl (notBool inner)
    · exact absurd rfl (notInteger inner)
    · exact absurd rfl (notNumber inner)
    · exact absurd rfl (notString inner)
    · exact absurd rfl (notArray inner)
    · exact absurd rfl (notObject inner)
  all_goals
    next same => cases same

/-- An object with the keys of another form is not read back. -/
theorem metadataValueFromJson_ambiguous {entries : List (String × MetadataValue)}
    (ambiguous : Ambiguous (entries.map Prod.fst)) :
    metadataValueFromJson ((MetadataValue.object entries).toJson round) ≠
      .ok (.object entries) := by
  rw [MetadataValue.toJson]
  intro read
  rcases ambiguous with wrapper | ⟨tag, listed, tagged⟩ | ⟨two, mantissa, scale⟩
  · obtain ⟨⟨key, x⟩, rfl, rfl⟩ := List.map_eq_singleton_iff.mp wrapper
    rw [jsonMembers, jsonMembers, metadataValueFromJson_wrapper] at read
    obtain ⟨entries, read, same⟩ := map_eq_ok.mp read
    cases same
    exact metadataFromJsonValue_wrapper x read
  · obtain ⟨⟨key, x⟩, rfl, rfl⟩ := List.map_eq_singleton_iff.mp tagged
    rw [jsonMembers, jsonMembers] at read
    have nested := metadataFromJsonValue_depth (fun other _ => @shallow round other)
      (metadataFromJsonValue_of_tagged listed read)
    simp [jsonMembers, Value.depthMembers] at nested
  · rw [metadataValueFromJson_naturalDecimal] at read
    · obtain ⟨d, -, same⟩ := elim_eq_ok.mp read
      cases same
    · rw [naturalDecimal_iff, jsonMembers_keys]
      exact ⟨two, mantissa, scale⟩

end Depth

mutual

open MetadataValue

theorem fromJson_toJson_iff (v : MetadataValue) :
    metadataValueFromJson (v.toJson round) = .ok v ↔ v.Natural := by
  match v with
  | .null => rw [toJson, metadataValueFromJson]; simp [Natural]
  | .bool b => rw [toJson, metadataValueFromJson]; simp [Natural]
  | .integer n => rw [toJson, metadataValueFromJson, numberFromJson_integer]; simp [Natural]
  | .string s => rw [toJson, metadataValueFromJson]; simp [Natural]
  | .number d =>
    rw [toJson, metadataValueFromJson_decimal, MetadataValue.Natural]
    by_cases range : -2 ^ 63 ≤ d.mantissa ∧ d.mantissa < 2 ^ 64
    · rw [decimalOf_json round range.1 range.2]
      exact iff_of_true rfl range
    · rw [decimalOf_wide round range]
      exact iff_of_false (by simp) range
  | .array items =>
    rw [toJson, metadataValueFromJson, MetadataValue.Natural, ← fromItems_jsonItems_iff items,
      map_eq_ok]
    simp
  | .object entries =>
    rw [MetadataValue.Natural, ← fromMembers_jsonMembers_iff entries]
    by_cases ambiguous : Ambiguous (entries.map Prod.fst)
    · exact iff_of_false (metadataValueFromJson_ambiguous ambiguous) fun both => both.1 ambiguous
    · rw [toJson, metadataValueFromJson_object (by rwa [jsonMembers_keys]), map_eq_ok]
      simp [ambiguous]

theorem fromItems_jsonItems_iff (items : List MetadataValue) :
    fromItems (jsonItems round items) = .ok items ↔ NaturalItems items := by
  match items with
  | [] => rw [jsonItems, fromItems]; simp [NaturalItems]
  | item :: rest =>
    rw [NaturalItems, ← fromJson_toJson_iff item, ← fromItems_jsonItems_iff rest, jsonItems,
      fromItems]
    simp [bind_eq_ok]

theorem fromMembers_jsonMembers_iff (entries : List (String × MetadataValue)) :
    fromMembers (jsonMembers round entries) = .ok entries ↔ NaturalEntries entries := by
  match entries with
  | [] => rw [jsonMembers, fromMembers]; simp [NaturalEntries]
  | (key, value) :: rest =>
    rw [NaturalEntries, ← fromJson_toJson_iff value, ← fromMembers_jsonMembers_iff rest,
      jsonMembers, fromMembers]
    simp [bind_eq_ok]

end

/-- Metadata as it is read back from its JSON text. -/
def Metadata.readBack (metadata : Metadata) : Except String (List (String × MetadataValue)) := do
  let value ← (metadata.toJson round).reread
  metadataFromJsonValue value

/-- Metadata is read back from its JSON text exactly if no object in it has the keys of another
form, its decimals fit a 64-bit type and the text is not nested too deep for its reader. -/
theorem metadata_survives_iff (metadata : Metadata) :
    metadata.readBack round = .ok metadata.entries ↔
      metadata.Natural ∧ (metadata.toJson round).depth < Value.recursionLimit := by
  have natural : metadataFromJsonValue (metadata.toJson round) = .ok metadata.entries ↔
      metadata.Natural := by
    rw [Metadata.toJson, Metadata.Natural]
    by_cases wrapper : metadata.entries.map Prod.fst = ["entries"]
    · obtain ⟨⟨key, x⟩, same, rfl⟩ := List.map_eq_singleton_iff.mp wrapper
      rw [same]
      exact iff_of_false (metadataFromJsonValue_wrapper x) fun both => both.1 rfl
    · rw [metadataFromJsonValue, unwrapped_of_keys (by rwa [jsonMembers_keys]),
        fromMembers_jsonMembers_iff]
      simp [wrapper]
  rw [Metadata.readBack, Value.reread]
  split
  · next shallow => simpa [shallow] using natural
  · next deep => simp [deep]

def Metadata.single (key : String) (value : MetadataValue) (formed : value.WellFormed) :
    Metadata where
  entries := [(key, value)]
  sorted := List.pairwise_singleton ..
  each := by simpa using formed

theorem metadataFromJsonValue_single {key : String} (value : MetadataValue)
    (formed : value.WellFormed) (plain : key ≠ "entries") :
    metadataFromJsonValue ((Metadata.single key value formed).toJson round) =
      (metadataValueFromJson (value.toJson round)).map fun decoded => [(key, decoded)] := by
  simp only [Metadata.toJson, Metadata.single, jsonMembers, metadataFromJsonValue, unwrapped, plain,
    if_false, fromMembers, ok_bind, map_eq_bind]

/-- The double of 2^64. -/
def widest (_ : Int) : { x : QueueContract.F64 // x.isFinite = true } :=
  ⟨⟨0x43f0000000000000⟩, by decide⟩

/-- An entry under the key of the wrapper is lost, an object with the key of a tag is read as the
tagged value, one with the keys of a decimal as a decimal, and a wide mantissa is refused. -/
theorem metadata_reinterpreted :
    metadataFromJsonValue ((Metadata.single "entries" (.integer 5) (.integer 5)).toJson widest) =
        .ok [] ∧
      metadataFromJsonValue ((Metadata.single "a" (.object [("String", .string "x")])
        (.object (by simp [Ascending]) (by simpa using .string "x"))).toJson widest) =
        .ok [("a", .string "x")] ∧
      (∃ d, metadataFromJsonValue ((Metadata.single "a"
        (.object [("mantissa", .integer 1), ("scale", .integer 0)])
        (.object (by simp [Ascending]; decide) (by
          rintro entry (_ | ⟨_, _ | ⟨_, ⟨⟩⟩⟩)
          · exact .integer _
          · exact .integer _))).toJson widest) = .ok [("a", .number d)]) ∧
      metadataFromJsonValue ((Metadata.single "a" (.number { mantissa := 2 ^ 64, scale := 0 })
        (.number _)).toJson widest) = .error "decimal metadata value" := by
  refine ⟨?_, ?_, ⟨{ mantissa := 1, scale := 0 }, ?_⟩, ?_⟩
  · simp [Metadata.toJson, Metadata.single, jsonMembers, metadataFromJsonValue, unwrapped,
      MetadataValue.toJson, fromMembers]
  · rw [metadataFromJsonValue_single widest _ _ (by decide)]
    simp [MetadataValue.toJson, jsonMembers, metadataValueFromJson, Except.map]
  · rw [metadataFromJsonValue_single widest _ _ (by decide)]
    simp only [MetadataValue.toJson, jsonMembers, metadataValueFromJson_decimal]
    rfl
  · rw [metadataFromJsonValue_single widest _ _ (by decide)]
    simp only [MetadataValue.toJson, metadataValueFromJson_decimal]
    rfl

end Domain
