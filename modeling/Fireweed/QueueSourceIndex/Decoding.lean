import Fireweed.QueueSourceIndex.Literals

/-!
# Reading postings

The key of a posting is read back under the types of its columns. The sort is
checked where it lies, below two layers of escapes, and its text byte by byte.
-/

namespace QueueSourceIndex

open ByteOrder Checked List Postcard QueueContract QueueIndex Std Utf8 Literal

def postingUnknown (reason : String) : QueueError := .outcomeUnknown ("source posting: " ++ reason)

def membershipUnknown (reason : String) : QueueError :=
  .outcomeUnknown ("source membership: " ++ reason)

/-! ## Ordered tuples -/

/-- `Utf8::push`: at most four bytes of an unfinished character are kept. -/
def pushUtf8 (buffer : List UInt8) (byte : UInt8) : QueueResult (List UInt8) :=
  if buffer.length = 4 then .error (postingUnknown "invalid ordered UTF-8")
  else
    match scan (buffer ++ [byte]) with
    | .valid => .ok []
    | .truncated => .ok (buffer ++ [byte])
    | .invalid => .error (postingUnknown "invalid ordered UTF-8")

/-- The bytes of text are checked, other bytes are passed. -/
def pushByte (text : Bool) (buffer : List UInt8) (byte : UInt8) : QueueResult (List UInt8) :=
  if text then pushUtf8 buffer byte else .ok buffer

/-- The loop over an escaped literal inside a tuple, and what follows it. -/
def validateLiteral (text : Bool) (buffer : List UInt8) : List UInt8 → QueueResult (List UInt8)
  | [] => .error (postingUnknown "unterminated ordered literal")
  | byte :: rest =>
    if byte ≠ 0 then do
      let buffer ← pushByte text buffer byte
      validateLiteral text buffer rest
    else
      match rest with
      | [] => .error (postingUnknown "invalid ordered literal escape")
      | next :: rest =>
        if next = 0 then do
          rejectIf (text && !buffer.isEmpty) (postingUnknown "truncated ordered UTF-8")
          .ok rest
        else if next = 255 then do
          let buffer ← pushByte text buffer 0
          validateLiteral text buffer rest
        else .error (postingUnknown "invalid ordered literal escape")

def take (n : Nat) (bytes : List UInt8) : QueueResult (List UInt8 × List UInt8) := do
  rejectIf (decide (bytes.length < n)) (postingUnknown "truncated ordered number")
  .ok (bytes.take n, bytes.drop n)

/-- `u64::from_be_bytes`. -/
def fromBeBytes (bytes : List UInt8) : UInt64 :=
  UInt64.ofNat (bytes.foldl (fun n byte => n * 256 + byte.toNat) 0)

/-- The bits of the float with this place in the order. -/
def unorderedBits (ordered : UInt64) : UInt64 :=
  if ordered >>> 63 = 1 then ordered ^^^ signBit else ~~~ordered

def validateFloat (ordered : UInt64) : QueueResult Unit :=
  let value : F64 := ⟨unorderedBits ordered⟩
  rejectIf (!value.isFinite || (value.isZero && unorderedBits ordered != 0))
    (postingUnknown "noncanonical ordered float")

/-- One present column of a known type. -/
def validateScalar (kind : FieldType) (bytes : List UInt8) : QueueResult (List UInt8) :=
  match kind with
  | .integer => do
    let (_, rest) ← take 8 bytes
    .ok rest
  | .float => do
    let (number, rest) ← take 8 bytes
    validateFloat (fromBeBytes number)
    .ok rest
  | .boolean =>
    match bytes with
    | byte :: rest =>
      if byte = 0 ∨ byte = 1 then .ok rest else .error (postingUnknown "invalid ordered boolean")
    | [] => .error (postingUnknown "invalid ordered boolean")
  | .text => validateLiteral true [] bytes
  | .bytes => validateLiteral false [] bytes

def validateColumn (missing : Bool) (bytes : List UInt8) (kind : FieldType) :
    QueueResult (List UInt8) :=
  match bytes with
  | [] => .error (postingUnknown "invalid ordered presence")
  | presence :: rest =>
    if presence = 0 ∧ missing then .ok rest
    else if presence = 1 then
      match rest with
      | [] => .error (postingUnknown "ordered component type differs")
      | tag :: rest => do
        rejectIf (tag != typeTag kind) (postingUnknown "ordered component type differs")
        validateScalar kind rest
    else .error (postingUnknown "invalid ordered presence")

def validateOrdered (bytes : List UInt8) (types : List FieldType) (missing : Bool) :
    QueueResult Unit :=
  match bytes with
  | [] => .error (postingUnknown "ordered codec version differs")
  | codec :: rest => do
    rejectIf (codec != 1) (postingUnknown "ordered codec version differs")
    let rest ← types.foldlM (validateColumn missing) rest
    rejectIf (!rest.isEmpty) (postingUnknown "ordered tuple arity differs")

/-! ## Postings -/

/-- A cell of the source at the original cut. -/
structure QueueSourcePoint where
  key : List UInt8
  value : Option (List UInt8)

structure QueueSourceDecodedPosting where
  collection : Option String
  key : Literal
  sort : Literal
deriving DecidableEq

def marker (point : QueueSourcePoint) : QueueResult Unit :=
  rejectIf (point.value != some []) (membershipUnknown "absent or nonempty posting marker")

def recordKey (input : List UInt8) : QueueResult Literal := do
  let (key, rest) ← Literal.parse input
  key.validateIdentifier
  rejectIf (!rest.isEmpty) (membershipUnknown "trailing membership components")
  .ok key

def collectionSuffix (input : List UInt8) (expected : Option String) :
    QueueResult (List UInt8) := do
  rejectIf (expected.any blank) (membershipUnknown "blank collection identifier")
  match input, expected with
  | [], _ => .error (membershipUnknown "posting collection domain differs")
  | domain :: rest, none => do
    rejectIf (domain != 0) (membershipUnknown "posting collection domain differs")
    .ok rest
  | domain :: rest, some name => do
    rejectIf (domain != 1) (membershipUnknown "posting collection domain differs")
    let (actual, rest) ← Literal.parse rest
    rejectIf (!actual.matches_ (asBytes name)) (membershipUnknown "posting collection differs")
    .ok rest

namespace QueueSourcePostingFamily

/-- The number of columns that the family has. -/
def checkArity (self : QueueSourcePostingFamily) (types : List FieldType) : QueueResult Unit :=
  match self with
  | scalar .. => rejectIf (types.length != 1) (postingUnknown "scalar arity differs")
  | named .. =>
    rejectIf (types.isEmpty || decide (8 < types.length)) (postingUnknown "named arity differs")

/-- Only named indexes have missing columns. -/
def missing : QueueSourcePostingFamily → Bool
  | scalar .. => false
  | named .. => true

def stripFamily (self : QueueSourcePostingFamily) (key : List UInt8) :
    QueueResult (List UInt8) :=
  match key with
  | first :: second :: input => do
    rejectIf (first != version || second != self.tag) (postingUnknown "posting family differs")
    .ok input
  | _ => .error (postingUnknown "posting family differs")

def decode (self : QueueSourcePostingFamily) (point : QueueSourcePoint) (types : List FieldType) :
    QueueResult QueueSourceDecodedPosting := do
  marker point
  self.checkArity types
  rejectIf (blank self.name) (postingUnknown "blank posting name")
  let input ← self.stripFamily point.key
  let input ← collectionSuffix input self.collection
  let (actualName, input) ← Literal.parse input
  rejectIf (!actualName.matches_ (asBytes self.name)) (postingUnknown "posting name differs")
  let (sort, input) ← Literal.parse input
  validateOrdered sort.bytes types self.missing
  let key ← recordKey input
  .ok ⟨self.collection, key, sort⟩

end QueueSourcePostingFamily

/-! ## Text -/

theorem pending_nil : Pending [] := by
  exact ⟨'a', String.utf8EncodeChar 'a', String.utf8EncodeChar_ne_nil, rfl⟩

variable {bytes buffer rest input : List UInt8} {kind : FieldType} {types : List FieldType}

theorem length_wellFormed_le (formed : WellFormed bytes) : bytes.length ≤ 4 := by
  cases formed <;> simp

theorem length_pending_lt (pending : Pending buffer) : buffer.length < 4 := by
  obtain ⟨c, rest, more, whole⟩ := pending
  have bound := length_wellFormed_le (wellFormed_utf8EncodeChar c)
  have some := length_pos_iff.mpr more
  rw [whole, length_append] at bound
  omega

theorem pending_pushUtf8 {next : List UInt8} (pending : Pending buffer) {byte : UInt8}
    (pushed : pushUtf8 buffer byte = .ok next) : Pending next := by
  have step := pending.scan_snoc byte
  rw [pushUtf8] at pushed
  split_ifs at pushed
  cases outcome : scan (buffer ++ [byte]) with
  | valid =>
    rw [outcome] at pushed
    cases pushed
    exact pending_nil
  | truncated =>
    rw [outcome] at pushed step
    cases pushed
    exact step
  | invalid =>
    rw [outcome] at pushed
    cases pushed

/-- A byte can be pushed exactly when text can still follow. -/
theorem valid_pushUtf8_iff (pending : Pending buffer) (byte : UInt8) (rest : List UInt8) :
    Valid (buffer ++ byte :: rest) ↔
      ∃ next, pushUtf8 buffer byte = .ok next ∧ Valid (next ++ rest) := by
  have short := length_pending_lt pending
  have step := pending.scan_snoc byte
  rw [pushUtf8, if_neg (by omega)]
  cases outcome : scan (buffer ++ [byte]) with
  | valid =>
    rw [outcome] at step
    obtain ⟨c, whole⟩ := step
    rw [← scan_eq_valid, append_cons, ← whole, (wellFormed_utf8EncodeChar c).scan_append,
      scan_eq_valid]
    simp
  | truncated =>
    rw [append_cons]
    simp
  | invalid =>
    rw [outcome] at step
    simpa using step rest

theorem valid_pending_iff (pending : Pending buffer) : Valid buffer ↔ buffer = [] := by
  constructor
  · rintro ⟨chars, whole⟩
    cases chars with
    | nil => exact whole.symm
    | cons c chars => exact (pending.not_char whole.symm).elim
  · rintro rfl
    exact ⟨[], rfl⟩

theorem validateLiteral_cons (text : Bool) (buffer : List UInt8) {x : UInt8} (nonzero : x ≠ 0)
    (rest : List UInt8) :
    validateLiteral text buffer (x :: rest) =
      pushByte text buffer x >>= fun buffer => validateLiteral text buffer rest := by
  rw [validateLiteral.eq_def]
  simp [nonzero]

theorem validateLiteral_cons_zero (text : Bool) (buffer rest : List UInt8) :
    validateLiteral text buffer (0 :: 255 :: rest) =
      pushByte text buffer 0 >>= fun buffer => validateLiteral text buffer rest := by
  rw [validateLiteral.eq_def]
  simp

theorem of_validateLiteral {text : Bool} (accepted : validateLiteral text buffer input = .ok rest) :
    ∃ word, input = escaped word ++ rest := by
  fun_induction validateLiteral text buffer input with
  | case1 => cases accepted
  | case2 buffer byte rest' nonzero ih =>
    obtain ⟨next, -, final⟩ := bind_eq_ok.mp accepted
    obtain ⟨word, rfl⟩ := ih next final
    exact ⟨byte :: word, by rw [escaped_cons nonzero, cons_append]⟩
  | case3 => cases accepted
  | case4 buffer byte zero rest' =>
    obtain ⟨-, final⟩ := check_bind_eq_ok.mp accepted
    cases final
    obtain rfl : byte = 0 := not_not.mp zero
    exact ⟨[], rfl⟩
  | case5 buffer byte zero rest' _ ih =>
    obtain ⟨next, -, final⟩ := bind_eq_ok.mp accepted
    obtain ⟨word, rfl⟩ := ih next final
    obtain rfl : byte = 0 := not_not.mp zero
    exact ⟨0 :: word, by rw [escaped_cons_zero]; rfl⟩
  | case6 => cases accepted

/-- The bytewise check accepts an escaped literal exactly when the whole literal is text. -/
theorem validateLiteral_text (pending : Pending buffer) (word rest : List UInt8) :
    validateLiteral true buffer (escaped word ++ rest) = .ok rest ↔ Valid (buffer ++ word) := by
  -- one byte of the literal, escaped or not
  have step : ∀ {buffer : List UInt8} {x : UInt8} {word : List UInt8}, Pending buffer →
      (∀ {next}, Pending next → (validateLiteral true next (escaped word ++ rest) = .ok rest ↔
        Valid (next ++ word))) →
      ((pushByte true buffer x >>= fun buffer =>
        validateLiteral true buffer (escaped word ++ rest)) = .ok rest ↔
          Valid (buffer ++ x :: word)) := by
    intro buffer x word pending ih
    rw [valid_pushUtf8_iff pending, bind_eq_ok]
    refine exists_congr fun next => and_congr_right fun pushed =>
      ih (pending_pushUtf8 pending pushed)
  induction word generalizing buffer with
  | nil =>
    rw [append_nil, valid_pending_iff pending]
    change (rejectIf (true && !buffer.isEmpty) _ >>= fun _ => .ok rest) = .ok rest ↔ _
    rw [check_bind_eq_ok, rejectIf_eq_ok]
    simp
  | cons x word ih =>
    by_cases zero : x = 0
    · subst zero
      rw [escaped_cons_zero]
      exact (congrArg (· = .ok rest) (validateLiteral_cons_zero true buffer _)).to_iff.trans
        (step pending ih)
    · rw [escaped_cons zero, cons_append, validateLiteral_cons true buffer zero]
      exact step pending ih

theorem validateLiteral_bytes (buffer word rest : List UInt8) :
    validateLiteral false buffer (escaped word ++ rest) = .ok rest := by
  induction word with
  | nil => rfl
  | cons x word ih =>
    by_cases zero : x = 0
    · subst zero
      rw [escaped_cons_zero]
      exact (validateLiteral_cons_zero false buffer _).trans ih
    · rw [escaped_cons zero, cons_append, validateLiteral_cons false buffer zero]
      exact ih

/-- A literal inside a tuple: any bytes, or text. -/
theorem validateLiteral_eq_ok {text : Bool} :
    validateLiteral text [] input = .ok rest ↔
      ∃ word, input = escaped word ++ rest ∧ (text = true → Valid word) := by
  constructor
  · intro accepted
    obtain ⟨word, rfl⟩ := of_validateLiteral accepted
    refine ⟨word, rfl, ?_⟩
    rintro rfl
    exact (validateLiteral_text pending_nil word rest).mp accepted
  · rintro ⟨word, rfl, valid⟩
    cases text with
    | true => exact (validateLiteral_text pending_nil word rest).mpr (valid rfl)
    | false => exact validateLiteral_bytes [] word rest

/-! ## Numbers -/

theorem take_eq_ok {n : Nat} {number : List UInt8} :
    take n bytes = .ok (number, rest) ↔ bytes = number ++ rest ∧ number.length = n := by
  rw [take, check_bind_eq_ok, rejectIf_eq_ok, decide_eq_false_iff_not, Except.ok.injEq,
    Prod.mk.injEq]
  constructor
  · rintro ⟨long, rfl, rfl⟩
    exact ⟨(take_append_drop n bytes).symm, length_take_of_le (by omega)⟩
  · rintro ⟨rfl, rfl⟩
    simp

theorem leBytes_foldl (bytes : List UInt8) :
    (leBytes bytes.length (bytes.foldl (fun n byte => n * 256 + byte.toNat) 0)).reverse = bytes ∧
      bytes.foldl (fun n byte => n * 256 + byte.toNat) 0 < 256 ^ bytes.length := by
  induction bytes using reverseRecOn with
  | nil => exact ⟨rfl, by simp⟩
  | append_singleton bytes b ih =>
    obtain ⟨same, bound⟩ := ih
    have low := b.toNat_lt
    rw [foldl_append, length_append, length_singleton]
    simp only [foldl_cons, foldl_nil]
    generalize bytes.foldl (fun n byte => n * 256 + byte.toNat) 0 = n at *
    have last : (n * 256 + b.toNat) % 256 = b.toNat := by omega
    have others : (n * 256 + b.toNat) / 256 = n := by omega
    constructor
    · rw [leBytes, last, others, reverse_cons, same, UInt8.ofNat_toNat]
    · rw [pow_succ]
      omega

theorem beBytes_fromBeBytes {number : List UInt8} (sized : number.length = 8) :
    beBytes (fromBeBytes number) = number := by
  obtain ⟨same, bound⟩ := leBytes_foldl number
  rw [sized] at same bound
  rw [beBytes, fromBeBytes, UInt64.toNat_ofNat_of_lt' bound, same]

theorem fromBeBytes_beBytes (n : UInt64) : fromBeBytes (beBytes n) = n := by
  have same := (parts_beBytes _ _).eq_iff.mp (beBytes_fromBeBytes (beBytes_length n))
  exact UInt64.toNat_inj.mp (Nat.compare_eq_eq.mp same)

theorem flip_flip (x : UInt64) : x ^^^ signBit ^^^ signBit = x := by
  rw [UInt64.xor_assoc, UInt64.xor_self, UInt64.xor_zero]

theorem negative_flip_iff (x : UInt64) : (x ^^^ signBit) >>> 63 = 1 ↔ ¬x >>> 63 = 1 := by
  have range := x.toNat_lt
  have flipped : (x ^^^ signBit).toNat = x.toNat ^^^ 2 ^ 63 := UInt64.toNat_xor ..
  rw [negative_iff, negative_iff, flipped]
  by_cases high : 2 ^ 63 ≤ x.toNat
  · obtain ⟨low, whole⟩ := Nat.exists_eq_add_of_le' high
    have small : low < 2 ^ 63 := by omega
    rw [whole, ← xor_two_pow_of_lt small, Nat.xor_assoc, Nat.xor_self, Nat.xor_zero,
      xor_two_pow_of_lt small]
    omega
  · rw [xor_two_pow_of_lt (by omega)]
    omega

theorem negative_not_iff (x : UInt64) : (~~~x) >>> 63 = 1 ↔ ¬x >>> 63 = 1 := by
  have range := x.toNat_lt
  rw [negative_iff, negative_iff, UInt64.toNat_not]
  have size : UInt64.size = 2 ^ 64 := rfl
  omega

/-- The bits of a float without the sign of zero. -/
def canonicalBits (x : F64) : UInt64 := if x.isZero then 0 else x.bits

theorem orderedBits_eq (x : F64) : orderedBits x =
    if canonicalBits x >>> 63 = 1 then ~~~canonicalBits x else canonicalBits x ^^^ signBit := rfl

theorem unorderedBits_orderedBits (x : F64) : unorderedBits (orderedBits x) = canonicalBits x := by
  rw [orderedBits_eq]
  generalize canonicalBits x = bits
  rw [unorderedBits]
  by_cases negative : bits >>> 63 = 1
  · rw [if_pos negative, if_neg (by rw [negative_not_iff]; exact not_not.mpr negative),
      UInt64.not_not]
  · rw [if_neg negative, if_pos ((negative_flip_iff bits).mpr negative), flip_flip]

theorem orderedBits_unorderedBits {ordered : UInt64}
    (canonical : canonicalBits ⟨unorderedBits ordered⟩ = unorderedBits ordered) :
    orderedBits ⟨unorderedBits ordered⟩ = ordered := by
  rw [orderedBits_eq, canonical, unorderedBits]
  by_cases positive : ordered >>> 63 = 1
  · rw [if_pos positive, if_neg (by rw [negative_flip_iff]; exact not_not.mpr positive), flip_flip]
  · rw [if_neg positive, if_pos ((negative_not_iff ordered).mpr positive), UInt64.not_not]

/-- A number is accepted exactly when it is the place of a finite float. -/
theorem validateFloat_eq_ok {ordered : UInt64} :
    validateFloat ordered = .ok () ↔ ∃ x : F64, x.isFinite = true ∧ orderedBits x = ordered := by
  rw [validateFloat, rejectIf_eq_ok]
  constructor
  · intro accepted
    obtain ⟨finite, canonical⟩ := Bool.or_eq_false_iff.mp accepted
    refine ⟨⟨unorderedBits ordered⟩, by simpa using finite, orderedBits_unorderedBits ?_⟩
    rw [canonicalBits]
    split_ifs with zero
    · rw [zero, Bool.true_and, bne_eq_false_iff_eq] at canonical
      exact canonical.symm
    · rfl
  · rintro ⟨x, finite, rfl⟩
    rw [unorderedBits_orderedBits, canonicalBits]
    split_ifs with zero
    · decide
    · rw [finite, Bool.eq_false_iff.mpr zero]
      rfl

/-! ## Tuples -/

theorem field_eq_ok {v : FieldValue} :
    field v kind = .ok () ↔ v.fieldType = kind ∧ ∀ x, v = .float x → x.isFinite = true := by
  cases v with
  | float x =>
    rw [field, check_bind_eq_ok, rejectIf_eq_ok, rejectIf_eq_ok, bne_eq_false_iff_eq]
    simp
  | _ =>
    rw [field, check_bind_eq_ok, rejectIf_eq_ok, bne_eq_false_iff_eq]
    · simp
    · exact nofun

/-- A value of a type has the bytes that the check of the type accepts. -/
theorem validateScalar_scalar {v : FieldValue} {word : List UInt8}
    (valid : field v v.fieldType = .ok ()) (encoded : scalar v = .ok (typeTag v.fieldType :: word))
    (rest : List UInt8) : validateScalar v.fieldType (word ++ rest) = .ok rest := by
  cases v with
  | integer n =>
    cases encoded
    exact bind_eq_ok.mpr ⟨(_, rest), take_eq_ok.mpr ⟨rfl, beBytes_length _⟩, rfl⟩
  | float x =>
    have finite := (field_eq_ok.mp valid).2 x rfl
    rw [scalar, if_pos finite] at encoded
    cases encoded
    refine bind_eq_ok.mpr ⟨(_, rest), take_eq_ok.mpr ⟨rfl, beBytes_length _⟩,
      check_bind_eq_ok.mpr ⟨?_, rfl⟩⟩
    exact validateFloat_eq_ok.mpr ⟨x, finite, (fromBeBytes_beBytes _).symm⟩
  | boolean b =>
    cases encoded
    cases b <;> rfl
  | text t =>
    cases encoded
    exact validateLiteral_eq_ok.mpr ⟨_, rfl, fun _ => ⟨t.toList, encode_toList t⟩⟩
  | bytes b =>
    cases encoded
    exact validateLiteral_eq_ok.mpr ⟨_, rfl, fun other => by cases other⟩

/-- What the check of a type accepts are the bytes of a value of that type. -/
theorem exists_scalar (accepted : validateScalar kind bytes = .ok rest) :
    ∃ v word, field v kind = .ok () ∧ scalar v = .ok (typeTag kind :: word) ∧
      bytes = word ++ rest := by
  cases kind with
  | integer =>
    obtain ⟨⟨number, rest'⟩, taken, final⟩ := bind_eq_ok.mp accepted
    cases final
    obtain ⟨rfl, sized⟩ := take_eq_ok.mp taken
    refine ⟨.integer (fromBeBytes number ^^^ signBit).toInt64, number, rfl, ?_, rfl⟩
    rw [scalar, UInt64.toUInt64_toInt64, flip_flip, beBytes_fromBeBytes sized]
    rfl
  | float =>
    obtain ⟨⟨number, rest'⟩, taken, final⟩ := bind_eq_ok.mp accepted
    obtain ⟨canonical, final⟩ := check_bind_eq_ok.mp final
    cases final
    obtain ⟨rfl, sized⟩ := take_eq_ok.mp taken
    obtain ⟨x, finite, placed⟩ := validateFloat_eq_ok.mp canonical
    refine ⟨.float x, number, field_eq_ok.mpr ⟨rfl, ?_⟩, ?_, rfl⟩
    · rintro y ⟨⟩
      exact finite
    · rw [scalar, if_pos finite, placed, beBytes_fromBeBytes sized]
      rfl
  | boolean =>
    rcases bytes with - | ⟨byte, bytes⟩
    · cases accepted
    · rw [validateScalar] at accepted
      split_ifs at accepted with bit
      cases accepted
      rcases bit with rfl | rfl
      · exact ⟨.boolean false, [0], rfl, rfl, rfl⟩
      · exact ⟨.boolean true, [1], rfl, rfl, rfl⟩
  | text =>
    obtain ⟨word, rfl, valid⟩ := validateLiteral_eq_ok.mp accepted
    obtain ⟨chars, rfl⟩ := valid rfl
    refine ⟨.text (String.ofList chars), escaped (encode chars), rfl, ?_, rfl⟩
    rw [scalar, ← encode_toList, String.toList_ofList]
    rfl
  | bytes =>
    obtain ⟨word, rfl, -⟩ := validateLiteral_eq_ok.mp accepted
    exact ⟨.bytes word, escaped word, rfl, rfl, rfl⟩

def ColumnOf (missing : Bool) (kind : FieldType) : Option FieldValue → Prop
  | none => missing = true
  | some v => field v kind = .ok ()

theorem validateColumn_eq_ok {missing : Bool} :
    validateColumn missing bytes kind = .ok rest ↔
      ∃ v word, ColumnOf missing kind v ∧ component v = .ok word ∧ bytes = word ++ rest := by
  constructor
  · intro accepted
    rcases bytes with - | ⟨presence, bytes⟩
    · cases accepted
    · rw [validateColumn.eq_def] at accepted
      dsimp only at accepted
      split_ifs at accepted with absent present
      · cases accepted
        obtain ⟨rfl, allowed⟩ := absent
        exact ⟨none, [0], allowed, rfl, rfl⟩
      · rcases bytes with - | ⟨tag, bytes⟩
        · cases accepted
        · obtain ⟨typed, payload⟩ := check_bind_eq_ok.mp accepted
          obtain rfl : tag = typeTag kind := by simpa using rejectIf_eq_ok.mp typed
          obtain ⟨v, word, valid, encoded, rfl⟩ := exists_scalar payload
          refine ⟨some v, 1 :: typeTag kind :: word, valid, ?_, by rw [present]; rfl⟩
          rw [component, encoded]
          rfl
  · rintro ⟨v, word, admitted, encoded, rfl⟩
    cases v with
    | none =>
      cases encoded
      rw [cons_append, validateColumn.eq_def]
      exact if_pos ⟨rfl, admitted⟩
    | some v =>
      obtain ⟨tagged, scalars, final⟩ := bind_eq_ok.mp encoded
      cases final
      obtain ⟨payload, rfl⟩ := scalar_tag scalars
      have valid : field v kind = .ok () := admitted
      obtain rfl := (field_eq_ok.mp valid).1
      rw [cons_append, cons_append, validateColumn.eq_def]
      dsimp only
      rw [if_neg (by simp), if_pos rfl, check_bind_eq_ok]
      exact ⟨rejectIf_eq_ok.mpr (by simp), validateScalar_scalar valid scalars rest⟩

theorem validateColumns_eq_ok {missing : Bool} :
    types.foldlM (validateColumn missing) bytes = .ok rest ↔
      ∃ values words, Forall₂ (ColumnOf missing) types values ∧
        values.mapM component = .ok words ∧ bytes = words.flatten ++ rest := by
  induction types generalizing bytes with
  | nil =>
    constructor
    · intro accepted
      cases accepted
      exact ⟨[], [], .nil, rfl, rfl⟩
    · rintro ⟨values, words, ⟨⟩, encoded, rfl⟩
      cases encoded
      rfl
  | cons kind types ih =>
    rw [foldlM_cons, bind_eq_ok]
    constructor
    · rintro ⟨next, first, others⟩
      obtain ⟨v, word, admitted, encoded, rfl⟩ := validateColumn_eq_ok.mp first
      obtain ⟨values, words, columns, tail, rfl⟩ := ih.mp others
      refine ⟨v :: values, word :: words, .cons admitted columns, ?_, by simp⟩
      rw [mapM_cons, encoded, ok_bind, tail]
      rfl
    · rintro ⟨values, words, columns, encoded, rfl⟩
      cases columns with
      | @cons _ v _ values admitted columns =>
        obtain ⟨word, first, others⟩ := bind_eq_ok.mp (mapM_cons.symm.trans encoded)
        obtain ⟨words', tail, final⟩ := bind_eq_ok.mp others
        cases final
        refine ⟨words'.flatten ++ rest, validateColumn_eq_ok.mpr ⟨v, word, admitted, first, ?_⟩,
          ih.mpr ⟨values, words', columns, tail, rfl⟩⟩
        simp

/-- The check accepts exactly the ordered keys of tuples of the types. -/
theorem validateOrdered_eq_ok {missing : Bool} :
    validateOrdered bytes types missing = .ok () ↔
      ∃ values, Forall₂ (ColumnOf missing) types values ∧ orderedKey values = .ok bytes := by
  constructor
  · intro accepted
    cases bytes with
    | nil => cases accepted
    | cons codec bytes =>
      obtain ⟨version, tuple⟩ := check_bind_eq_ok.mp accepted
      obtain rfl : codec = 1 := by simpa using rejectIf_eq_ok.mp version
      obtain ⟨rest, columns, ended⟩ := bind_eq_ok.mp tuple
      obtain rfl : rest = [] := by simpa using rejectIf_eq_ok.mp ended
      obtain ⟨values, words, admitted, encoded, rfl⟩ := validateColumns_eq_ok.mp columns
      refine ⟨values, admitted, ?_⟩
      rw [orderedKey, encodeValues, encoded, ok_bind, append_nil]
  · rintro ⟨values, admitted, keyed⟩
    obtain ⟨words, encoded, final⟩ := bind_eq_ok.mp keyed
    cases final
    refine check_bind_eq_ok.mpr ⟨rejectIf_eq_ok.mpr (by simp), bind_eq_ok.mpr ⟨[], ?_, rfl⟩⟩
    exact validateColumns_eq_ok.mpr ⟨values, words, admitted, encoded, by simp⟩

/-! ## Keys of postings -/

theorem recordKey_eq_ok {literal : Literal} :
    recordKey input = .ok literal ↔
      ∃ s, blank s = false ∧ input = escaped (asBytes s) ∧ literal = .of (asBytes s) := by
  rw [recordKey, bind_eq_ok]
  constructor
  · rintro ⟨⟨key, rest⟩, parsed, checks⟩
    obtain ⟨identifier, checks⟩ := check_bind_eq_ok.mp checks
    obtain ⟨ended, final⟩ := check_bind_eq_ok.mp checks
    cases final
    obtain rfl : rest = [] := by simpa using rejectIf_eq_ok.mp ended
    obtain ⟨word, rfl, rfl⟩ := parse_eq_ok.mp parsed
    obtain ⟨s, rfl, named⟩ := validateIdentifier_eq_ok.mp identifier
    exact ⟨s, named, by simp, rfl⟩
  · rintro ⟨s, named, rfl, rfl⟩
    refine ⟨(.of (asBytes s), []), parse_eq_ok.mpr ⟨_, by simp, rfl⟩, ?_⟩
    exact check_bind_eq_ok.mpr ⟨validateIdentifier_eq_ok.mpr ⟨s, rfl, named⟩, rfl⟩

theorem parse_name {name : String} {literal : Literal} :
    (parse input = .ok (literal, rest) ∧ literal.matches_ (asBytes name) = true) ↔
      input = escaped (asBytes name) ++ rest ∧ literal = .of (asBytes name) := by
  constructor
  · rintro ⟨parsed, same⟩
    obtain ⟨word, rfl, rfl⟩ := parse_eq_ok.mp parsed
    rw [matches_of] at same
    rw [same]
    exact ⟨rfl, rfl⟩
  · rintro ⟨rfl, rfl⟩
    exact ⟨parse_eq_ok.mpr ⟨_, rfl, rfl⟩, matches_of.mpr rfl⟩

theorem collectionSuffix_eq_ok {expected : Option String} (placed : expected.any blank = false) :
    collectionSuffix input expected = .ok rest ↔ input = collectionWord expected ++ rest := by
  cases expected with
  | none =>
    cases input with
    | nil =>
      rw [collectionSuffix, placed]
      simp [collectionWord, rejectIf]
    | cons domain input =>
      change (rejectIf (domain != 0) _ >>= fun _ => .ok input) = .ok rest ↔ _
      rw [check_bind_eq_ok, rejectIf_eq_ok]
      simp [collectionWord]
  | some name =>
    cases input with
    | nil =>
      rw [collectionSuffix, placed]
      simp [collectionWord, rejectIf]
    | cons domain input =>
      rw [collectionSuffix, placed]
      change (rejectIf (domain != 1) _ >>= fun _ => parse input >>= fun parsed =>
        rejectIf (!parsed.1.matches_ (asBytes name)) _ >>= fun _ => .ok parsed.2) = .ok rest ↔ _
      rw [check_bind_eq_ok, rejectIf_eq_ok, bind_eq_ok]
      constructor
      · rintro ⟨one, ⟨literal, rest'⟩, parsed, checks⟩
        obtain ⟨same, final⟩ := check_bind_eq_ok.mp checks
        cases final
        obtain ⟨rfl, -⟩ := parse_name.mp ⟨parsed, by simpa using rejectIf_eq_ok.mp same⟩
        obtain rfl : domain = 1 := by simpa using one
        rfl
      · intro whole
        obtain ⟨rfl, rfl⟩ : domain = 1 ∧ input = escaped (asBytes name) ++ rest := by
          simpa [collectionWord] using whole
        obtain ⟨parsed, same⟩ := parse_name.mpr ⟨Eq.refl (escaped (asBytes name) ++ rest), rfl⟩
        exact ⟨rfl, _, parsed, check_bind_eq_ok.mpr ⟨rejectIf_eq_ok.mpr (by simp [same]), rfl⟩⟩

namespace QueueSourcePostingFamily

variable {self : QueueSourcePostingFamily}

theorem stripFamily_eq_ok {key : List UInt8} :
    self.stripFamily key = .ok input ↔ key = [version, self.tag] ++ input := by
  rcases key with - | ⟨first, - | ⟨second, key⟩⟩
  · simp [stripFamily]
  · simp [stripFamily]
  · rw [stripFamily, check_bind_eq_ok, rejectIf_eq_ok]
    simp [and_assoc]

/-- A family with a blank name or a blank collection reads no key. -/
theorem named_of_decode {point : QueueSourcePoint} {decoded : QueueSourceDecodedPosting}
    (read : self.decode point types = .ok decoded) :
    blank self.name = false ∧ self.collection.any blank = false := by
  obtain ⟨-, read⟩ := check_bind_eq_ok.mp read
  obtain ⟨-, read⟩ := check_bind_eq_ok.mp read
  obtain ⟨named, read⟩ := check_bind_eq_ok.mp read
  obtain ⟨input, -, read⟩ := bind_eq_ok.mp read
  obtain ⟨rest, suffix, -⟩ := bind_eq_ok.mp read
  exact ⟨rejectIf_eq_ok.mp named, rejectIf_eq_ok.mp (check_bind_eq_ok.mp suffix).1⟩

/-- The keys that are read are those that are written. -/
theorem decode_eq_ok (arity : self.checkArity types = .ok ()) (named : blank self.name = false)
    (placed : self.collection.any blank = false) {decoded : QueueSourceDecodedPosting} :
    self.decode ⟨bytes, some []⟩ types = .ok decoded ↔
      ∃ values sort key, Forall₂ (ColumnOf self.missing) types values ∧
        orderedKey values = .ok sort ∧ blank key = false ∧
        bytes = (self.posting sort key).word ∧
        decoded = ⟨self.collection, .of (asBytes key), .of sort⟩ := by
  have start : self.decode ⟨bytes, some []⟩ types = .ok decoded ↔
      (self.stripFamily bytes >>= fun input => collectionSuffix input self.collection >>=
        fun input => parse input >>= fun actual =>
          rejectIf (!actual.1.matches_ (asBytes self.name))
            (postingUnknown "posting name differs") >>= fun _ =>
          parse actual.2 >>= fun sort =>
          validateOrdered sort.1.bytes types self.missing >>= fun _ =>
          recordKey sort.2 >>= fun key => .ok ⟨self.collection, key, sort.1⟩) = .ok decoded := by
    rw [decode, arity, named]
    rfl
  rw [start, bind_eq_ok]
  constructor
  · rintro ⟨input, stripped, rest⟩
    obtain ⟨afterCollection, suffix, rest⟩ := bind_eq_ok.mp rest
    obtain ⟨⟨name, afterName⟩, parsed, rest⟩ := bind_eq_ok.mp rest
    obtain ⟨same, rest⟩ := check_bind_eq_ok.mp rest
    obtain ⟨⟨sort, afterSort⟩, parsed', rest⟩ := bind_eq_ok.mp rest
    obtain ⟨ordered, rest⟩ := check_bind_eq_ok.mp rest
    obtain ⟨key, read, final⟩ := bind_eq_ok.mp rest
    cases final
    obtain ⟨s, known, rfl, rfl⟩ := recordKey_eq_ok.mp read
    obtain ⟨word, rfl, rfl⟩ := parse_eq_ok.mp parsed'
    obtain ⟨rfl, -⟩ := parse_name.mp ⟨parsed, by simpa using rejectIf_eq_ok.mp same⟩
    obtain rfl := (collectionSuffix_eq_ok placed).mp suffix
    obtain rfl := stripFamily_eq_ok.mp stripped
    rw [bytes_of] at ordered
    obtain ⟨values, columns, keyed⟩ := validateOrdered_eq_ok.mp ordered
    refine ⟨values, word, s, columns, keyed, known, ?_, rfl⟩
    rw [posting_word, QueueSourcePostingFamily.word]
    simp only [append_assoc]
  · rintro ⟨values, sort, key, columns, keyed, known, rfl, rfl⟩
    obtain ⟨parsed, same⟩ := parse_name.mpr
      ⟨Eq.refl (escaped (asBytes self.name) ++ (escaped sort ++ escaped (asBytes key))), rfl⟩
    have ordered : validateOrdered (of sort).bytes types self.missing = .ok () := by
      rw [bytes_of]
      exact validateOrdered_eq_ok.mpr ⟨values, columns, keyed⟩
    have shape : (self.posting sort key).word = [version, self.tag] ++
        (collectionWord self.collection ++ (escaped (asBytes self.name) ++
          (escaped sort ++ escaped (asBytes key)))) := by
      rw [posting_word, QueueSourcePostingFamily.word]
      simp only [append_assoc]
    refine ⟨_, stripFamily_eq_ok.mpr shape, bind_eq_ok.mpr
      ⟨_, (collectionSuffix_eq_ok placed).mpr rfl, bind_eq_ok.mpr ⟨_, parsed, ?_⟩⟩⟩
    refine check_bind_eq_ok.mpr ⟨rejectIf_eq_ok.mpr (by simp [same]), bind_eq_ok.mpr
      ⟨(.of sort, escaped (asBytes key)), parse_eq_ok.mpr ⟨_, rfl, rfl⟩, ?_⟩⟩
    exact check_bind_eq_ok.mpr ⟨ordered, bind_eq_ok.mpr
      ⟨_, recordKey_eq_ok.mpr ⟨key, known, rfl, rfl⟩, rfl⟩⟩

end QueueSourcePostingFamily

/-- Decoding accepts exactly the keys that are produced for a family whose name and collection are
not blank, and returns their record key and their sort; text inside a sort is accepted exactly when
the whole of it is text. -/
theorem decode_exact {family : QueueSourcePostingFamily} {types : List FieldType}
    (arity : family.checkArity types = .ok ()) {bytes : List UInt8}
    (sized : bytes.length < 2 ^ 64) :
    (∀ decoded, family.decode ⟨bytes, some []⟩ types = .ok decoded ↔
      blank family.name = false ∧ family.collection.any blank = false ∧
      ∃ values sort key, Forall₂ (ColumnOf family.missing) types values ∧
        orderedKey values = .ok sort ∧ blank key = false ∧
        (family.posting sort key).encode = .ok bytes ∧
        decoded = ⟨family.collection, .of (asBytes key), .of sort⟩) ∧
    ∀ word rest, validateLiteral true [] (escaped word ++ rest) = .ok rest ↔
      ∃ s, asBytes s = word := by
  refine ⟨fun decoded => ?_, fun word rest => ?_⟩
  · rw [← and_assoc, ← and_iff_right_of_imp (a := blank family.name = false ∧ _)
      QueueSourcePostingFamily.named_of_decode]
    refine and_congr_right fun ⟨named, placed⟩ => ?_
    rw [QueueSourcePostingFamily.decode_eq_ok arity named placed]
    refine exists_congr fun values => exists_congr fun sort => exists_congr fun key =>
      and_congr_right fun _ => and_congr_right fun _ => and_congr_right fun _ => ?_
    refine and_congr_left fun _ => ?_
    rw [QueueSourceKey.encode_eq_ok]
    constructor
    · rintro rfl
      exact ⟨family.posting_valid sort key, sized, rfl⟩
    · exact fun encoded => encoded.2.2
  · rw [validateLiteral_text pending_nil word rest]
    constructor
    · rintro ⟨chars, rfl⟩
      exact ⟨String.ofList chars, by rw [asBytes, ← encode_toList, String.toList_ofList]⟩
    · rintro ⟨s, rfl⟩
      exact ⟨s.toList, encode_toList s⟩

/-- A posting with a text of two bytes and a missing column is read back. -/
theorem decode_exact_pair : ∃ sort bytes, orderedKey [some (.text "é"), none] = .ok sort ∧
    (QueueSourceKey.namedPosting none "by" sort "a").encode = .ok bytes ∧
    (QueueSourcePostingFamily.named none "by").decode ⟨bytes, some []⟩ [.text, .integer] =
      .ok ⟨none, .of (asBytes "a"), .of sort⟩ := by
  have keyed : orderedKey [some (.text "é"), none] = .ok [1, 1, 3, 195, 169, 0, 0, 0] := by
    decide +kernel
  have encoded : (QueueSourceKey.namedPosting none "by" [1, 1, 3, 195, 169, 0, 0, 0] "a").encode =
      .ok [1, 5, 0, 98, 121, 0, 0, 1, 1, 3, 195, 169, 0, 255, 0, 255, 0, 255, 0, 0, 97, 0, 0] := by
    decide +kernel
  have arity : (QueueSourcePostingFamily.named none "by").checkArity [.text, .integer] = .ok () :=
    rfl
  obtain ⟨accepted, -⟩ := decode_exact arity (QueueSourceKey.encode_eq_ok.mp encoded).2.1
  refine ⟨_, _, keyed, encoded, (accepted _).mpr ⟨by decide +kernel, rfl,
    _, _, "a", ?_, keyed, by decide +kernel, ?_, rfl⟩⟩
  · exact .cons rfl (.cons rfl .nil)
  · rw [QueueSourceKey.encode_eq_ok] at encoded ⊢
    exact ⟨encoded.1, encoded.2.1, rfl⟩

/-- The produced key of a family with a blank name is refused. -/
theorem blank_name_refused : ∃ sort bytes, orderedKey [some (.integer 0)] = .ok sort ∧
    (QueueSourceKey.scalarPosting none " " sort "a").encode = .ok bytes ∧
    (QueueSourcePostingFamily.scalar none " ").decode ⟨bytes, some []⟩ [.integer] =
      .error (postingUnknown "blank posting name") := by
  refine ⟨[1, 1, 0, 128, 0, 0, 0, 0, 0, 0, 0], [1, 4, 0, 32, 0, 0, 1, 1, 0, 255, 128, 0, 255, 0,
    255, 0, 255, 0, 255, 0, 255, 0, 255, 0, 255, 0, 0, 97, 0, 0], ?_, ?_, ?_⟩ <;> decide +kernel

end QueueSourceIndex
