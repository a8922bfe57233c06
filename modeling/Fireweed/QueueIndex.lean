import Fireweed.QueueContract.Records

/-!
# Ordered index keys

The order-preserving encoding of index tuples. A missing component is one byte, a
present one is tagged with its type, and every component is self-delimiting, so a
tuple of components can be read back from its key.
-/

namespace QueueIndex

open BTree Checked List Postcard QueueContract Std

/-- Zero bytes are escaped, so that the terminator sorts before any continuation. -/
def escapedPrefix (bytes : List UInt8) : List UInt8 :=
  bytes.flatMap fun byte => if byte = 0 then [0, 255] else [byte]

def escaped (bytes : List UInt8) : List UInt8 := escapedPrefix bytes ++ [0, 0]

def beBytes (n : UInt64) : List UInt8 := (leBytes 8 n.toNat).reverse

def signBit : UInt64 := 0x8000000000000000

/-- The bits of a finite float, made monotone in its value; both zeros share one key. -/
def orderedBits (x : F64) : UInt64 :=
  let bits := if x.isZero then 0 else x.bits
  if bits >>> 63 = 1 then ~~~bits else bits ^^^ signBit

def scalar : FieldValue → QueueResult (List UInt8)
  | .integer n => .ok (0 :: beBytes (n.toUInt64 ^^^ signBit))
  | .float x =>
    if x.isFinite then .ok (1 :: beBytes (orderedBits x))
    else .error (.invalid "noncanonical index float")
  | .boolean b => .ok [2, if b then 1 else 0]
  | .text s => .ok (3 :: escaped s.toUTF8.data.toList)
  | .bytes b => .ok (4 :: escaped b)

def component : Option FieldValue → QueueResult (List UInt8)
  | none => .ok [0]
  | some value => do
    let bytes ← scalar value
    .ok (1 :: bytes)

/-- The first byte is the codec version. -/
def encodeValues (values : List (Option FieldValue)) : QueueResult (List UInt8) := do
  let components ← values.mapM component
  .ok (1 :: components.flatten)

def orderedKey (values : List (Option FieldValue)) : QueueResult (List UInt8) :=
  encodeValues values

/-! ## Keys and the equality of values -/

variable {x : F64} {a : List UInt8}

theorem orderedBits_zero (zero : x.isZero = true) : orderedBits x = signBit := by
  simp [orderedBits, zero, signBit]

/-- Equal floats have one key, and none of them is infinite unless both are. -/
theorem float_key_congr {y : F64} (equal : x.eq y = true) :
    x.isFinite = y.isFinite ∧ orderedBits x = orderedBits y := by
  simp only [F64.eq, Bool.and_eq_true, Bool.or_eq_true, beq_iff_eq] at equal
  rcases equal.2 with same | ⟨left, right⟩
  · cases x
    cases y
    cases same
    exact ⟨rfl, rfl⟩
  · rw [F64.isFinite_of_isZero left, F64.isFinite_of_isZero right, orderedBits_zero left,
      orderedBits_zero right]
    exact ⟨rfl, rfl⟩

theorem scalar_congr {a b : FieldValue} (equal : a.eq b = true) : scalar a = scalar b := by
  cases a <;> cases b <;> simp_all [FieldValue.eq, scalar]
  case float.float x y =>
    obtain ⟨finite, bits⟩ := float_key_congr equal
    rw [finite, bits]

theorem component_congr {a b : Option FieldValue} (equal : valueEq a b = true) :
    component a = component b := by
  cases a <;> cases b <;> simp_all [valueEq, optionEq, component]
  rw [scalar_congr equal]

theorem mapM_congr {as bs : List (Option FieldValue)}
    (equal : Forall₂ (fun a b => valueEq a b = true) as bs) :
    as.mapM component = bs.mapM component := by
  induction equal with
  | nil => rfl
  | cons head _ ih => rw [mapM_cons, mapM_cons, component_congr head, ih]

/-- Tuples equal in the sense of the source have one key. -/
theorem orderedKey_congr {as bs : List (Option FieldValue)}
    (equal : Forall₂ (fun a b => valueEq a b = true) as bs) : orderedKey as = orderedKey bs := by
  rw [orderedKey, orderedKey, encodeValues, encodeValues, mapM_congr equal]

/-! ## Components are self-delimiting -/

theorem escaped_append_inj {b r s : List UInt8} (same : escaped a ++ r = escaped b ++ s) :
    a = b ∧ r = s := by
  induction a generalizing b with
  | nil =>
    cases b with
    | nil => simpa [escaped, escapedPrefix] using same
    | cons y b =>
      by_cases zero : y = 0
      · simp [escaped, escapedPrefix, zero] at same
      · simp only [escaped, escapedPrefix, flatMap_nil, nil_append, flatMap_cons,
          if_neg zero, cons_append, cons.injEq] at same
        exact absurd same.1.symm zero
  | cons x a ih =>
    cases b with
    | nil =>
      by_cases zero : x = 0
      · simp [escaped, escapedPrefix, zero] at same
      · simp only [escaped, escapedPrefix, flatMap_nil, nil_append, flatMap_cons,
          if_neg zero, cons_append, cons.injEq] at same
        exact absurd same.1 zero
    | cons y b =>
      have tail : x = y ∧ escaped a ++ r = escaped b ++ s := by
        by_cases left : x = 0 <;> by_cases right : y = 0 <;>
          simp_all [escaped, escapedPrefix]
      obtain ⟨rest, suffix⟩ := ih tail.2
      exact ⟨by rw [tail.1, rest], suffix⟩

theorem beBytes_length (n : UInt64) : (beBytes n).length = 8 := by
  simp [beBytes, leBytes_length]

/-- The type byte of a present component. -/
def typeTag : FieldType → UInt8
  | .integer => 0
  | .float => 1
  | .boolean => 2
  | .text => 3
  | .bytes => 4

theorem scalar_tag {v : FieldValue} (encoded : scalar v = .ok a) :
    ∃ payload, a = typeTag v.fieldType :: payload := by
  cases v with
  | float x =>
    simp only [scalar] at encoded
    split at encoded
    · cases encoded
      exact ⟨_, rfl⟩
    · cases encoded
  | _ =>
    cases encoded
    exact ⟨_, rfl⟩

theorem typeTag_injective : Function.Injective typeTag := by
  intro s t
  cases s <;> cases t <;> decide

theorem float_scalar (encoded : scalar (.float x) = .ok a) : a = 1 :: beBytes (orderedBits x) := by
  simp only [scalar] at encoded
  split at encoded
  · cases encoded
    rfl
  · cases encoded

theorem scalar_append_inj {v w : FieldValue} {b r s : List UInt8} (left : scalar v = .ok a)
    (right : scalar w = .ok b) (same : a ++ r = b ++ s) : a = b ∧ r = s := by
  have types : v.fieldType = w.fieldType := by
    obtain ⟨p, first⟩ := scalar_tag left
    obtain ⟨q, second⟩ := scalar_tag right
    rw [first, second, cons_append, cons_append, cons.injEq] at same
    exact typeTag_injective same.1
  cases v <;> cases w <;> simp only [FieldValue.fieldType, reduceCtorEq] at types
  case integer.integer m n =>
    cases left
    cases right
    exact append_inj same (by simp [beBytes_length])
  case float.float x y =>
    cases float_scalar left
    cases float_scalar right
    exact append_inj same (by simp [beBytes_length])
  case boolean.boolean x y =>
    cases left
    cases right
    exact append_inj same rfl
  case text.text x y =>
    cases left
    cases right
    obtain ⟨bytes, rest⟩ := escaped_append_inj (cons.inj same).2
    exact ⟨by rw [bytes], rest⟩
  case bytes.bytes x y =>
    cases left
    cases right
    obtain ⟨bytes, rest⟩ := escaped_append_inj (cons.inj same).2
    exact ⟨by rw [bytes], rest⟩

/-- A component is read back from the front of a key. -/
theorem component_append_inj {v w : Option FieldValue} {b r s : List UInt8}
    (left : component v = .ok a) (right : component w = .ok b) (same : a ++ r = b ++ s) :
    v.isSome = w.isSome ∧ a = b ∧ r = s := by
  cases v with
  | none =>
    cases w with
    | none => simp_all [component]
    | some w =>
      obtain ⟨bytes, -, final⟩ := bind_eq_ok.mp right
      cases left
      cases final
      simp at same
  | some v =>
    obtain ⟨bytes, first, final⟩ := bind_eq_ok.mp left
    cases final
    cases w with
    | none =>
      cases right
      simp at same
    | some w =>
      obtain ⟨bytes', second, final'⟩ := bind_eq_ok.mp right
      cases final'
      obtain ⟨equal, rest⟩ := scalar_append_inj first second (by simpa using same)
      exact ⟨rfl, by rw [equal], rest⟩

/-- Tuples of one width with the same key are missing the same components. -/
theorem encodeValues_missing {vs ws : List (Option FieldValue)} {k : List UInt8}
    (left : encodeValues vs = .ok k) (right : encodeValues ws = .ok k)
    (width : vs.length = ws.length) : vs.map Option.isSome = ws.map Option.isSome := by
  obtain ⟨as, first, key⟩ := bind_eq_ok.mp left
  obtain ⟨bs, second, key'⟩ := bind_eq_ok.mp right
  have same : as.flatten = bs.flatten := by
    cases key
    simpa using key'.symm
  clear left right key key'
  rw [mapM_eq_ok] at first second
  induction first generalizing ws bs with
  | nil =>
    cases ws with
    | nil => rfl
    | cons w ws => simp at width
  | @cons v a vs as head _ ih =>
    cases second with
    | nil => simp at width
    | @cons w b ws bs head' tail' =>
      simp only [flatten_cons] at same
      obtain ⟨present, -, rest⟩ := component_append_inj head head' same
      simp only [map_cons, present]
      rw [ih (by simpa using width) bs tail' rest]

end QueueIndex
