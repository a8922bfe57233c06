import Fireweed.ByteOrder
import Fireweed.QueueIndex
import Mathlib.Order.Monotone.Basic

/-!
# The order of index keys

Ordered keys embed the comparison of tuples. Every component is a code whose words
part, so a comparison that is decided in one column ignores the later ones, and a
key of some width is never a proper prefix of another one of that width.

The writer is the same for measuring a key and for emitting it, and the measured
length is the written one.
-/

namespace QueueIndex

open BTree ByteOrder Checked List Postcard QueueContract Std

/-! ## Escaped literals -/

theorem escaped_cons_zero (a : List UInt8) : escaped (0 :: a) = 0 :: 255 :: escaped a := by
  simp [escaped, escapedPrefix]

variable {x : UInt8}

theorem escaped_cons (nonzero : x ≠ 0) (a : List UInt8) : escaped (x :: a) = x :: escaped a := by
  simp [escaped, escapedPrefix, nonzero]

theorem compare_zero_of_ne (nonzero : x ≠ 0) : compare 0 x = .lt := by
  rw [compare_uint8, Nat.compare_eq_ite_lt]
  have positive : x.toNat ≠ 0 := fun zero => nonzero (UInt8.toNat_inj.mp zero)
  rw [if_pos (by simpa using Nat.pos_of_ne_zero positive)]

theorem compare_of_ne_zero (nonzero : x ≠ 0) : compare x 0 = .gt := by
  rw [OrientedOrd.eq_swap (a := x) (b := 0), compare_zero_of_ne nonzero]
  rfl

/-- The terminator sorts before an escaped zero and before every other byte. -/
theorem parts_escaped (a b : List UInt8) : Parts (escaped a) (escaped b) (compare a b) := by
  induction a generalizing b with
  | nil =>
    cases b with
    | nil => exact .refl _
    | cons y b =>
      rw [List.compare_nil_cons]
      by_cases zero : y = 0
      · rw [zero, escaped_cons_zero]
        exact .cons 0 (.part (x := 0) (y := 255) (by decide) [] (escaped b))
      · rw [escaped_cons zero, ← compare_zero_of_ne zero]
        exact .part (by rw [compare_zero_of_ne zero]; decide) [0] (escaped b)
  | cons x a ih =>
    cases b with
    | nil =>
      rw [List.compare_cons_nil]
      by_cases zero : x = 0
      · rw [zero, escaped_cons_zero]
        exact .cons 0 (.part (x := 255) (y := 0) (by decide) (escaped a) [])
      · rw [escaped_cons zero, ← compare_of_ne_zero zero]
        exact .part (by rw [compare_of_ne_zero zero]; decide) (escaped a) [0]
    | cons y b =>
      rw [List.compare_cons_cons]
      by_cases left : x = 0 <;> by_cases right : y = 0
      · rw [left, right, escaped_cons_zero, escaped_cons_zero, ReflOrd.compare_self]
        exact .cons 0 (.cons 255 (ih b))
      · rw [left, escaped_cons_zero, escaped_cons right, compare_zero_of_ne right]
        have parts := Parts.part (x := (0 : UInt8)) (y := y)
          (by rw [compare_zero_of_ne right]; decide) (255 :: escaped a) (escaped b)
        rwa [compare_zero_of_ne right] at parts
      · rw [right, escaped_cons_zero, escaped_cons left, compare_of_ne_zero left]
        have parts := Parts.part (x := x) (y := (0 : UInt8))
          (by rw [compare_of_ne_zero left]; decide) (escaped a) (255 :: escaped b)
        rwa [compare_of_ne_zero left] at parts
      · rw [escaped_cons left, escaped_cons right]
        exact (Parts.single x y).append (ih b)

/-! ## Numbers -/

theorem reverse_leBytes (width n : Nat) : (leBytes width n).reverse = bigEndian width n := by
  induction width generalizing n with
  | zero => rfl
  | succ width ih => rw [leBytes, reverse_cons, ih, bigEndian]

theorem parts_beBytes (m n : UInt64) : Parts (beBytes m) (beBytes n) (compare m.toNat n.toNat) := by
  rw [beBytes, beBytes, reverse_leBytes, reverse_leBytes]
  exact parts_bigEndian m.toNat_lt n.toNat_lt

/-- The sign of a float. -/
theorem negative_iff (bits : UInt64) : bits >>> 63 = 1 ↔ 2 ^ 63 ≤ bits.toNat := by
  have range := bits.toNat_lt
  rw [← UInt64.toNat_inj, UInt64.toNat_shiftRight]
  have shifted : bits.toNat >>> (UInt64.toNat 63 % 64) = bits.toNat / 2 ^ 63 :=
    Nat.shiftRight_eq_div_pow _ _
  rw [shifted]
  change bits.toNat / 2 ^ 63 = 1 ↔ _
  omega

theorem order_eq (x : F64) :
    x.order = if 2 ^ 63 ≤ x.bits.toNat then 2 ^ 63 - (x.bits.toNat : Int)
      else (x.bits.toNat : Int) := by
  have range := x.bits.toNat_lt
  have magnitude := F64.toNat_magnitude x
  rw [F64.order]
  simp only [beq_iff_eq, negative_iff]
  split <;> omega

/-- The bits of a finite float count its place in the order, with a gap of one below zero. -/
theorem toNat_orderedBits (x : F64) :
    ((orderedBits x).toNat : Int) =
      if 0 ≤ x.order then 2 ^ 63 + x.order else 2 ^ 63 - 1 + x.order := by
  have range := x.bits.toNat_lt
  have order := order_eq x
  by_cases zero : x.isZero = true
  · have none : x.magnitude.toNat = 0 := by
      rw [beq_iff_eq.mp zero]
      rfl
    rw [F64.toNat_magnitude] at none
    have still : x.order = 0 := by
      rw [order]
      split <;> omega
    rw [orderedBits_zero zero, still]
    rfl
  · have some_ : x.bits.toNat % 2 ^ 63 ≠ 0 := by
      rw [← F64.toNat_magnitude]
      intro none
      exact zero (beq_iff_eq.mpr (UInt64.toNat_inj.mp none))
    rw [orderedBits]
    simp only [zero, Bool.false_eq_true, if_false, negative_iff]
    by_cases negative : 2 ^ 63 ≤ x.bits.toNat
    · rw [if_pos negative] at order ⊢
      rw [UInt64.toNat_not]
      have size : UInt64.size = 2 ^ 64 := rfl
      rw [if_neg (by omega)]
      omega
    · rw [if_neg negative] at order ⊢
      have flipped : (x.bits ^^^ signBit).toNat = x.bits.toNat ^^^ 2 ^ 63 := UInt64.toNat_xor ..
      rw [flipped, xor_two_pow_of_lt (by omega), if_pos (by omega)]
      omega

theorem compare_orderedBits (x y : F64) :
    compare (orderedBits x).toNat (orderedBits y).toNat = compare x.order y.order := by
  have left := toNat_orderedBits x
  have right := toNat_orderedBits y
  rw [compare_int, Nat.compare_eq_ite_lt]
  split_ifs at left right ⊢ <;> first | rfl | omega

/-! ## Scalars and components -/

theorem parts_boolean (a b : Bool) :
    Parts [if a then (1 : UInt8) else 0] [if b then 1 else 0] (compare a b) := by
  cases a <;> cases b
  · exact .refl _
  · exact .part (x := 0) (y := 1) (by decide) [] []
  · exact .part (x := 1) (y := 0) (by decide) [] []
  · exact .refl _

/-- Values of one type have keys that part as the values compare. -/
theorem parts_scalar {kind : FieldType} {a b : FieldValue} (left : field a kind = .ok ())
    (right : field b kind = .ok ()) :
    ∃ u v o, scalar a = .ok u ∧ scalar b = .ok v ∧ compareFields a b = some o ∧ Parts u v o := by
  obtain ⟨typeA, finiteA⟩ := check_bind_eq_ok.mp left
  obtain ⟨typeB, finiteB⟩ := check_bind_eq_ok.mp right
  have types : a.fieldType = b.fieldType := by
    have first := rejectIf_eq_ok.mp typeA
    have second := rejectIf_eq_ok.mp typeB
    rw [bne_eq_false_iff_eq] at first second
    rw [first, second]
  cases a <;> cases b <;> simp only [FieldValue.fieldType, reduceCtorEq] at types
  case integer.integer m n =>
    refine ⟨_, _, _, rfl, rfl, rfl, .cons 0 ?_⟩
    rw [beBytes, beBytes, reverse_leBytes, reverse_leBytes]
    exact parts_int64 m n
  case float.float x y =>
    have here : x.isFinite = true := by simpa using rejectIf_eq_ok.mp finiteA
    have there : y.isFinite = true := by simpa using rejectIf_eq_ok.mp finiteB
    refine ⟨_, _, compare x.order y.order, by simp [scalar, here]; rfl,
      by simp [scalar, there]; rfl, by simp [compareFields, here, there], .cons 1 ?_⟩
    rw [← compare_orderedBits]
    exact parts_beBytes _ _
  case boolean.boolean x y => exact ⟨_, _, _, rfl, rfl, rfl, .cons 2 (parts_boolean x y)⟩
  case text.text x y => exact ⟨_, _, _, rfl, rfl, rfl, .cons 3 (parts_escaped _ _)⟩
  case bytes.bytes x y => exact ⟨_, _, _, rfl, rfl, rfl, .cons 4 (parts_escaped _ _)⟩

/-- The present component of a column has the type of the column. -/
def Fits (kind : FieldType) (value : Option FieldValue) : Prop :=
  ∀ v, value = some v → field v kind = .ok ()

theorem parts_component {kind : FieldType} {a b : Option FieldValue} (left : Fits kind a)
    (right : Fits kind b) :
    ∃ u v o, component a = .ok u ∧ component b = .ok v ∧ compareOptionalFields a b = some o ∧
      Parts u v o := by
  have single : ∀ {c : FieldValue}, field c kind = .ok () → ∃ w, scalar c = .ok w := by
    intro c fits
    obtain ⟨u, -, -, encoded, -⟩ := parts_scalar fits fits
    exact ⟨u, encoded⟩
  cases a with
  | none =>
    cases b with
    | none => exact ⟨_, _, _, rfl, rfl, rfl, .refl _⟩
    | some b =>
      obtain ⟨w, encoded⟩ := single (right b rfl)
      refine ⟨_, _, _, rfl, by rw [component, encoded]; rfl, rfl, ?_⟩
      exact .part (x := 0) (y := 1) (by decide) [] w
  | some a =>
    cases b with
    | none =>
      obtain ⟨w, encoded⟩ := single (left a rfl)
      refine ⟨_, _, _, by rw [component, encoded]; rfl, rfl, rfl, ?_⟩
      exact .part (x := 1) (y := 0) (by decide) w []
    | some b =>
      obtain ⟨u, v, o, first, second, order, parts⟩ := parts_scalar (left a rfl) (right b rfl)
      exact ⟨_, _, o, by rw [component, first]; rfl, by rw [component, second]; rfl, order,
        .cons 1 parts⟩

/-! ## Tuples -/

/-- The lexicographic comparison of tuples, column by column. -/
def compareTuples : List (Option FieldValue) → List (Option FieldValue) → Option Ordering
  | [], [] => some .eq
  | a :: as, b :: bs => do
    let first ← compareOptionalFields a b
    let rest ← compareTuples as bs
    some (first.then rest)
  | _, _ => none

section

variable {as bs : List (Option FieldValue)}

variable {kinds : List FieldType}

theorem parts_components (left : Forall₂ Fits kinds as) (right : Forall₂ Fits kinds bs) :
    ∃ us vs o, as.mapM component = .ok us ∧ bs.mapM component = .ok vs ∧
      compareTuples as bs = some o ∧ Parts us.flatten vs.flatten o := by
  induction left generalizing bs with
  | nil =>
    cases right
    exact ⟨[], [], .eq, rfl, rfl, rfl, .nil⟩
  | @cons kind a kinds as head _ ih =>
    cases right with
    | @cons _ b _ bs head' tail' =>
      obtain ⟨u, v, o, first, second, order, parts⟩ := parts_component head head'
      obtain ⟨us, vs, o', firsts, seconds, orders, rest⟩ := ih tail'
      refine ⟨u :: us, v :: vs, o.then o', ?_, ?_, ?_, ?_⟩
      · rw [mapM_cons, first, firsts]
        rfl
      · rw [mapM_cons, second, seconds]
        rfl
      · rw [compareTuples, order, orders]
        rfl
      · rw [flatten_cons, flatten_cons]
        exact parts.append rest

/-- Tuples compare as equal when all their columns do. -/
theorem compareTuples_eq_iff :
    compareTuples as bs = some .eq ↔
      Forall₂ (fun a b => compareOptionalFields a b = some .eq) as bs := by
  induction as generalizing bs with
  | nil => cases bs <;> simp [compareTuples]
  | cons a as ih =>
    cases bs with
    | nil => simp [compareTuples]
    | cons b bs =>
      rw [forall₂_cons, ← ih, compareTuples]
      cases first : compareOptionalFields a b with
      | none => simp
      | some o =>
        cases rest : compareTuples as bs with
        | none => simp
        | some o' => cases o <;> cases o' <;> simp [Ordering.then]

theorem parts_orderedKey (left : Forall₂ Fits kinds as) (right : Forall₂ Fits kinds bs) :
    ∃ u v o, orderedKey as = .ok u ∧ orderedKey bs = .ok v ∧ compareTuples as bs = some o ∧
      Parts u v o := by
  obtain ⟨us, vs, o, first, second, order, parts⟩ := parts_components left right
  exact ⟨_, _, o, by rw [orderedKey, encodeValues, first]; rfl,
    by rw [orderedKey, encodeValues, second]; rfl, order, .cons 1 parts⟩

/-- Of two keys of one width, of any types, none is a proper prefix of the other. -/
theorem components_prefix {us vs : List (List UInt8)} (left : as.mapM component = .ok us)
    (right : bs.mapM component = .ok vs) (width : as.length = bs.length) {r : List UInt8}
    (begins : us.flatten ++ r = vs.flatten) : r = [] := by
  rw [mapM_eq_ok] at left right
  induction left generalizing bs vs with
  | nil =>
    cases right with
    | nil => simpa using begins
    | cons => simp at width
  | @cons a u as us head _ ih =>
    cases right with
    | nil => simp at width
    | @cons b v bs vs head' tail' =>
      rw [flatten_cons, flatten_cons, append_assoc] at begins
      obtain ⟨-, -, rest⟩ := component_append_inj head head' begins
      exact ih tail' (by simpa using width) rest

theorem orderedKey_prefix {u v : List UInt8} (left : orderedKey as = .ok u)
    (right : orderedKey bs = .ok v) (width : as.length = bs.length) (begins : u <+: v) : u = v := by
  obtain ⟨us, first, key⟩ := bind_eq_ok.mp left
  obtain ⟨vs, second, key'⟩ := bind_eq_ok.mp right
  cases key
  cases key'
  obtain ⟨r, whole⟩ := begins
  rw [cons_append, cons.injEq] at whole
  have nothing := components_prefix first second width whole.2
  rw [nothing, append_nil] at whole
  rw [whole.2]

end

/-! ## The writer -/

/-- The target of the writer: it counts bytes, and keeps them unless it only measures. -/
structure IndexSink where
  bytes : Option (List UInt8)
  len : Nat

namespace IndexSink

def raw (sink : IndexSink) (bytes : List UInt8) : QueueResult IndexSink := do
  rejectIf (decide (2 ^ 64 ≤ sink.len + bytes.length)) .tooLarge
  .ok ⟨sink.bytes.map (· ++ bytes), sink.len + bytes.length⟩

def byte (sink : IndexSink) (byte : UInt8) : QueueResult IndexSink := sink.raw [byte]

/-- The length of a literal is computed without writing it. -/
def literal (sink : IndexSink) (bytes : List UInt8) : QueueResult IndexSink := do
  let length := bytes.length + (bytes.filter (· == 0)).length + 2
  rejectIf (decide (2 ^ 64 ≤ length)) .tooLarge
  rejectIf (decide (2 ^ 64 ≤ sink.len + length)) .tooLarge
  .ok ⟨sink.bytes.map (· ++ escaped bytes), sink.len + length⟩

/-- One round of the loop over the components. -/
def value (sink : IndexSink) : Option FieldValue → QueueResult IndexSink
  | none => sink.byte 0
  | some value => do
    let sink ← sink.byte 1
    match value with
    | .integer n => do
      let sink ← sink.byte 0
      sink.raw (beBytes (n.toUInt64 ^^^ signBit))
    | .float x => do
      rejectIf (!x.isFinite) (.invalid "noncanonical index float")
      let sink ← sink.byte 1
      sink.raw (beBytes (orderedBits x))
    | .boolean b => do
      let sink ← sink.byte 2
      sink.byte (if b then 1 else 0)
    | .text s => do
      let sink ← sink.byte 3
      sink.literal s.toUTF8.data.toList
    | .bytes b => do
      let sink ← sink.byte 4
      sink.literal b

end IndexSink

def writeValues (values : List (Option FieldValue)) (bytes : Option (List UInt8)) :
    QueueResult IndexSink := do
  let out ← IndexSink.byte ⟨bytes, 0⟩ 1
  values.foldlM IndexSink.value out

/-- The two passes of `encode_values`. -/
def writtenKey (values : List (Option FieldValue)) : QueueResult (List UInt8) := do
  let _ ← writeValues values none
  let out ← writeValues values (some [])
  .ok (out.bytes.getD [])

variable {values : List (Option FieldValue)} {out : IndexSink}

namespace IndexSink

def emit (sink : IndexSink) (bytes : List UInt8) : IndexSink :=
  ⟨sink.bytes.map (· ++ bytes), sink.len + bytes.length⟩

theorem emit_emit (sink : IndexSink) (u v : List UInt8) :
    (sink.emit u).emit v = sink.emit (u ++ v) := by
  cases sink with
  | mk bytes len => cases bytes <;> simp [emit, Nat.add_assoc]

/-- A writer that emits a word, unless the length overflows. -/
def Writes (write : IndexSink → QueueResult IndexSink) (word : List UInt8) : Prop :=
  ∀ sink out, write sink = .ok out ↔ sink.len + word.length < 2 ^ 64 ∧ out = sink.emit word

variable {first : IndexSink → QueueResult IndexSink} {v : Option FieldValue}

theorem Writes.seq {second : IndexSink → QueueResult IndexSink} {u v : List UInt8}
    (left : Writes first u) (right : Writes second v) :
    Writes (fun sink => first sink >>= second) (u ++ v) := by
  intro sink out
  rw [bind_eq_ok]
  constructor
  · rintro ⟨middle, one, two⟩
    obtain ⟨-, rfl⟩ := (left sink middle).mp one
    obtain ⟨fits, rfl⟩ := (right _ out).mp two
    rw [emit_emit]
    refine ⟨?_, rfl⟩
    simp only [emit] at fits
    rw [length_append]
    omega
  · rintro ⟨fits, rfl⟩
    rw [length_append] at fits
    refine ⟨sink.emit u, (left sink _).mpr ⟨by omega, rfl⟩, ?_⟩
    rw [right]
    refine ⟨?_, (emit_emit sink u v).symm⟩
    simp only [emit]
    omega

variable (word : List UInt8)

theorem writes_raw : Writes (fun sink => sink.raw word) word := by
  intro sink out
  change sink.raw word = .ok out ↔ _
  rw [raw, check_bind_eq_ok, rejectIf_eq_ok]
  simp only [decide_eq_false_iff_not, Nat.not_le, Except.ok.injEq]
  exact and_congr_right fun _ => eq_comm

theorem writes_byte (byte : UInt8) : Writes (fun sink => sink.byte byte) [byte] :=
  writes_raw [byte]

theorem length_escaped :
    (escaped word).length = word.length + (word.filter (· == 0)).length + 2 := by
  induction word with
  | nil => rfl
  | cons x word ih =>
    by_cases zero : x = 0
    · rw [zero, escaped_cons_zero]
      simp only [length_cons, ih, filter_cons, BEq.rfl, if_true]
      omega
    · rw [escaped_cons zero]
      have kept : (x == 0) = false := by simpa using zero
      simp only [length_cons, ih, filter_cons, kept, Bool.false_eq_true, if_false]
      omega

theorem writes_literal : Writes (fun sink => sink.literal word) (escaped word) := by
  intro sink out
  change sink.literal word = .ok out ↔ _
  rw [literal, check_bind_eq_ok, rejectIf_eq_ok, check_bind_eq_ok, rejectIf_eq_ok]
  simp only [decide_eq_false_iff_not, Nat.not_le, Except.ok.injEq, emit, length_escaped]
  constructor
  · rintro ⟨-, fits, rfl⟩
    exact ⟨fits, rfl⟩
  · rintro ⟨fits, rfl⟩
    exact ⟨by omega, fits, rfl⟩

theorem writes_value {word : List UInt8} (encoded : component v = .ok word) :
    Writes (fun sink => sink.value v) word := by
  cases v with
  | none =>
    cases encoded
    exact writes_byte 0
  | some v =>
    obtain ⟨bytes, scalars, final⟩ := bind_eq_ok.mp encoded
    cases final
    refine (writes_byte 1).seq (v := bytes) ?_
    cases v with
    | integer n =>
      cases scalars
      exact (writes_byte 0).seq (writes_raw _)
    | float x =>
      cases finite : x.isFinite with
      | false => simp [scalar, finite] at scalars
      | true =>
        cases float_scalar scalars
        simp only [rejectIf, finite, Bool.not_true, Bool.false_eq_true, if_false, ok_bind]
        exact (writes_byte 1).seq (writes_raw _)
    | boolean b =>
      cases scalars
      exact (writes_byte 2).seq (writes_byte _)
    | text s =>
      cases scalars
      exact (writes_byte 3).seq (writes_literal _)
    | bytes b =>
      cases scalars
      exact (writes_byte 4).seq (writes_literal _)

theorem value_eq_ok {sink : IndexSink} (written : sink.value v = .ok out) :
    ∃ word, component v = .ok word := by
  cases v with
  | none => exact ⟨_, rfl⟩
  | some v =>
    cases v with
    | float x =>
      obtain ⟨tagged, -, rest⟩ := bind_eq_ok.mp written
      have finite : x.isFinite = true := by
        simpa using rejectIf_eq_ok.mp (check_bind_eq_ok.mp rest).1
      exact ⟨1 :: 1 :: beBytes (orderedBits x), by simp [component, scalar, finite, ok_bind]⟩
    | _ => exact ⟨_, rfl⟩

/-- Components written after some first word. -/
theorem Writes.components {u : List UInt8} {words : List (List UInt8)} (start : Writes first u)
    (encoded : values.mapM component = .ok words) :
    Writes (fun sink => first sink >>= fun sink => values.foldlM value sink)
      (u ++ words.flatten) := by
  rw [mapM_eq_ok] at encoded
  induction encoded generalizing first u with
  | nil => simpa using start
  | @cons v word values words head _ ih =>
    have next := ih (start.seq (writes_value head))
    simpa [foldlM_cons, bind_assoc] using next

theorem components_eq_ok {sink : IndexSink} (written : values.foldlM value sink = .ok out) :
    ∃ words, values.mapM component = .ok words := by
  induction values generalizing sink with
  | nil => exact ⟨[], rfl⟩
  | cons v values ih =>
    obtain ⟨next, here, later⟩ := bind_eq_ok.mp (foldlM_cons.symm.trans written)
    obtain ⟨word, first⟩ := value_eq_ok here
    obtain ⟨words, rest⟩ := ih later
    exact ⟨word :: words, by rw [mapM_cons, first, rest]; rfl⟩

end IndexSink

open IndexSink

/-- Both passes of the writer agree on the key and on its length. -/
theorem writeValues_eq_ok {bytes : Option (List UInt8)} :
    writeValues values bytes = .ok out ↔ ∃ key, orderedKey values = .ok key ∧
      key.length < 2 ^ 64 ∧ out = ⟨bytes.map (· ++ key), key.length⟩ := by
  constructor
  · intro written
    obtain ⟨start, -, rest⟩ := bind_eq_ok.mp written
    obtain ⟨words, encoded⟩ := components_eq_ok rest
    obtain ⟨fits, rfl⟩ := ((writes_byte 1).components encoded ⟨bytes, 0⟩ out).mp written
    rw [Nat.zero_add] at fits
    refine ⟨1 :: words.flatten, by rw [orderedKey, encodeValues, encoded]; rfl, fits, ?_⟩
    simp [emit]
  · rintro ⟨key, keyed, fits, rfl⟩
    obtain ⟨words, encoded, final⟩ := bind_eq_ok.mp keyed
    cases final
    refine ((writes_byte 1).components encoded ⟨bytes, 0⟩ _).mpr ⟨?_, ?_⟩
    · rw [Nat.zero_add]
      exact fits
    · simp [emit]

/-- The key as the two passes write it. -/
theorem writtenKey_eq_ok {key : List UInt8} :
    writtenKey values = .ok key ↔ orderedKey values = .ok key ∧ key.length < 2 ^ 64 := by
  rw [writtenKey, bind_eq_ok]
  constructor
  · rintro ⟨measured, -, rest⟩
    obtain ⟨out, emitted, final⟩ := bind_eq_ok.mp rest
    obtain ⟨key', encoded, fits, rfl⟩ := writeValues_eq_ok.mp emitted
    cases final
    exact ⟨by simpa using encoded, by simpa using fits⟩
  · rintro ⟨encoded, fits⟩
    refine ⟨_, writeValues_eq_ok.mpr ⟨key, encoded, fits, rfl⟩, bind_eq_ok.mpr
      ⟨_, writeValues_eq_ok.mpr ⟨key, encoded, fits, rfl⟩, ?_⟩⟩
    simp

/-- Ordered keys embed the order of tuples whose columns have declared types: the bytes compare
as the tuples do, the keys are equal exactly when every column compares as equal, no key is a
proper prefix of another one of its width, and the measured length is the written one. -/
theorem orderedKey_embeds_order {kinds : List FieldType} {as bs : List (Option FieldValue)}
    (left : Forall₂ Fits kinds as) (right : Forall₂ Fits kinds bs) :
    (∃ u v, orderedKey as = .ok u ∧ orderedKey bs = .ok v ∧
      compareTuples as bs = some (compare u v) ∧
      (u = v ↔ Forall₂ (fun a b => compareOptionalFields a b = some .eq) as bs)) ∧
    (∀ (cs ds : List (Option FieldValue)) u v, cs.length = ds.length → orderedKey cs = .ok u →
      orderedKey ds = .ok v → u <+: v → u = v) ∧
    ∀ (cs : List (Option FieldValue)) measured, writeValues cs none = .ok measured →
      ∃ key, writeValues cs (some []) = .ok ⟨some key, measured.len⟩ ∧
        writtenKey cs = .ok key ∧ orderedKey cs = .ok key ∧ key.length = measured.len := by
  refine ⟨?_, ?_, ?_⟩
  · obtain ⟨u, v, o, first, second, order, parts⟩ := parts_orderedKey left right
    refine ⟨u, v, first, second, by rw [parts.compare_eq, order], ?_⟩
    rw [parts.eq_iff, ← compareTuples_eq_iff, order, Option.some.injEq]
  · exact fun cs ds u v width first second => orderedKey_prefix first second width
  · intro cs measured written
    obtain ⟨key, encoded, fits, rfl⟩ := writeValues_eq_ok.mp written
    exact ⟨key, writeValues_eq_ok.mpr ⟨key, encoded, fits, rfl⟩,
      writtenKey_eq_ok.mpr ⟨encoded, fits⟩, encoded, rfl⟩

/-- The two zeros share a key, and the text column decides. -/
theorem orderedKey_embeds_order_zeros :
    ∃ u v, orderedKey [some (.float ⟨0⟩), none, some (.text "a")] = .ok u ∧
      orderedKey [some (.float ⟨0x8000000000000000⟩), none, some (.text "a\x00")] = .ok v ∧
      compare u v = .lt := by
  have fits : ∀ (kind : FieldType) (v : FieldValue), field v kind = .ok () →
      Fits kind (some v) := by
    rintro kind v holds w ⟨⟩
    exact holds
  have nothing : Fits .integer none := fun v none => nomatch none
  have embedded := orderedKey_embeds_order
    (.cons (fits .float (.float ⟨0⟩) (by decide +kernel))
      (.cons nothing (.cons (fits .text (.text "a") rfl) .nil)))
    (.cons (fits .float (.float ⟨0x8000000000000000⟩) (by decide +kernel))
      (.cons nothing (.cons (fits .text (.text "a\x00") rfl) .nil)))
  obtain ⟨u, v, first, second, order, -⟩ := embedded.1
  refine ⟨u, v, first, second, Option.some.inj (order.symm.trans ?_)⟩
  decide +kernel

end QueueIndex
