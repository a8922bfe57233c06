import Fireweed.Postcard.Unambiguous
import Fireweed.PrefixRanges
import Fireweed.QueueIndex.Order

/-!
# Source keys

Every fact of a queue's source index is stored under a key: a version byte, a family
byte and the full literals that identify the fact. Literals are escaped and
terminated, so that a key can be read back in one way and the keys of one record,
one value or one collection form a range of the byte order.
-/

namespace QueueSourceIndex

open ByteOrder Checked List Postcard PrefixRanges QueueContract QueueIndex Std

/-! ## Keys -/

inductive QueueSourceWorkIndex where
  | rawLifecycle
  | attempts
  | leaseExpiry
  | priorityAscending
  | priorityDescending
  | schedule
  | overduePriorityAscending
  | overduePriorityDescending
  | overdueSchedule
deriving DecidableEq, Repr

namespace QueueSourceWorkIndex

def tag : QueueSourceWorkIndex → UInt8
  | rawLifecycle => 0
  | attempts => 1
  | leaseExpiry => 2
  | priorityAscending => 3
  | priorityDescending => 4
  | schedule => 5
  | overduePriorityAscending => 6
  | overduePriorityDescending => 7
  | overdueSchedule => 8

def width : QueueSourceWorkIndex → Nat
  | rawLifecycle => 1
  | attempts => 4
  | leaseExpiry => 8
  | priorityAscending | priorityDescending | schedule => 16
  | overduePriorityAscending | overduePriorityDescending | overdueSchedule => 24

theorem tag_injective : Function.Injective tag := by
  intro a b
  cases a <;> cases b <;> decide

end QueueSourceWorkIndex

/-- A fixed-width ordering tuple of a work record. -/
structure QueueSourceWorkPosting where
  index : QueueSourceWorkIndex
  sort : List UInt8
  sized : sort.length = index.width

inductive QueueSourceKey where
  | genesis
  | sequence
  | record (collection : Option String) (key : String)
  | field (collection : Option String) (key field : String)
  | scalarPosting (collection : Option String) (field : String) (sort : List UInt8) (key : String)
  | namedPosting (collection : Option String) (index : String) (sort : List UInt8) (key : String)
  | uniqueOwner (collection : Option String) (index : String) (sort : List UInt8)
  | original (domain : UInt8) (requestId : String)
  | lifecycleCount (lifecycle : Lifecycle)
  | liveKey (collection : Option String) (key : String)
  | workIntrinsic (posting : QueueSourceWorkPosting) (key : String)

def version : UInt8 := 1

def asBytes (s : String) : List UInt8 := s.toUTF8.data.toList

/-- The target of the key writer; like that of the index writer it may only measure. -/
abbrev Sink := IndexSink

namespace Sink

def literalPrefix (sink : Sink) (bytes : List UInt8) : QueueResult Sink := do
  let len := bytes.length + (bytes.filter (· == 0)).length
  rejectIf (decide (2 ^ 64 ≤ len)) .tooLarge
  rejectIf (decide (2 ^ 64 ≤ sink.len + len)) .tooLarge
  .ok ⟨sink.bytes.map (· ++ escapedPrefix bytes), sink.len + len⟩

def literal (sink : Sink) (bytes : List UInt8) : QueueResult Sink := do
  let sink ← literalPrefix sink bytes
  sink.raw [0, 0]

def collection (sink : Sink) : Option String → QueueResult Sink
  | none => sink.raw [0]
  | some name => do
    let sink ← sink.raw [1]
    literal sink (asBytes name)

end Sink

def lifecycleTag : Lifecycle → UInt8
  | .pending => 0
  | .leased => 1
  | .completed => 2
  | .failed => 3

namespace QueueSourceKey

def family : QueueSourceKey → UInt8
  | genesis => 0
  | sequence => 1
  | record .. => 2
  | field .. => 3
  | scalarPosting .. => 4
  | namedPosting .. => 5
  | uniqueOwner .. => 6
  | original .. => 7
  | lifecycleCount _ => 8
  | liveKey .. => 10
  | workIntrinsic .. => 11

def write (self : QueueSourceKey) (sink : Sink) : QueueResult Sink := do
  let sink ← sink.raw [version, self.family]
  match self with
  | genesis | sequence => .ok sink
  | record collection key => do
    let sink ← Sink.collection sink collection
    Sink.literal sink (asBytes key)
  | field collection key name => do
    let sink ← Sink.collection sink collection
    let sink ← Sink.literal sink (asBytes key)
    Sink.literal sink (asBytes name)
  | scalarPosting collection name sort key => do
    let sink ← Sink.collection sink collection
    let sink ← Sink.literal sink (asBytes name)
    let sink ← Sink.literal sink sort
    Sink.literal sink (asBytes key)
  | namedPosting collection index sort key => do
    let sink ← Sink.collection sink collection
    let sink ← Sink.literal sink (asBytes index)
    let sink ← Sink.literal sink sort
    Sink.literal sink (asBytes key)
  | uniqueOwner collection index sort => do
    let sink ← Sink.collection sink collection
    let sink ← Sink.literal sink (asBytes index)
    Sink.literal sink sort
  | original domain requestId => do
    rejectIf (decide (domain > 2)) (.outcomeUnknown "invalid source receipt domain")
    let sink ← sink.raw [domain]
    Sink.literal sink (asBytes requestId)
  | liveKey collection key => do
    let sink ← Sink.collection sink collection
    Sink.literal sink (asBytes key)
  | workIntrinsic posting key => do
    let sink ← sink.raw [posting.index.tag]
    let sink ← sink.raw posting.sort
    Sink.literal sink (asBytes key)
  | lifecycleCount lifecycle => sink.raw [lifecycleTag lifecycle]

end QueueSourceKey

def measured (write : Sink → QueueResult Sink) : QueueResult Nat := do
  let sink ← write ⟨none, 0⟩
  .ok sink.len

/-- Run a writer that keeps the bytes. -/
def written (write : Sink → QueueResult Sink) : QueueResult (List UInt8) := do
  let sink ← write ⟨some [], 0⟩
  .ok (sink.bytes.getD [])

def QueueSourceKey.encodedLen (self : QueueSourceKey) : QueueResult Nat := measured self.write

def QueueSourceKey.encode (self : QueueSourceKey) : QueueResult (List UInt8) := do
  let _ ← self.encodedLen
  written self.write

/-! ## Prefixes -/

def writeRecordFields (collection : Option String) (key : String) (sink : Sink) :
    QueueResult Sink := do
  let sink ← sink.raw [version, 3]
  let sink ← Sink.collection sink collection
  Sink.literal sink (asBytes key)

def recordFieldsPrefixLen (collection : Option String) (key : String) : QueueResult Nat :=
  measured (writeRecordFields collection key)

def recordFieldNamePrefixLen (collection : Option String) (key fieldPrefix : String) :
    QueueResult Nat := do
  let n ← recordFieldsPrefixLen collection key
  let len := n + (asBytes fieldPrefix).length + ((asBytes fieldPrefix).filter (· == 0)).length
  rejectIf (decide (2 ^ 64 ≤ len)) .tooLarge
  .ok len

/-- The lower bound of the fields of a record whose names start with a prefix. -/
def recordFieldNamePrefix (collection : Option String) (key fieldPrefix : String) :
    QueueResult (List UInt8) := do
  let _ ← recordFieldNamePrefixLen collection key fieldPrefix
  written fun sink => do
    let sink ← writeRecordFields collection key sink
    Sink.literalPrefix sink (asBytes fieldPrefix)

def writeLiveKeys (collection : Option String) (sink : Sink) : QueueResult Sink := do
  let sink ← sink.raw [version, 10]
  Sink.collection sink collection

def liveKeysPrefix (collection : Option String) : QueueResult (List UInt8) := do
  let _ ← measured (writeLiveKeys collection)
  written (writeLiveKeys collection)

inductive QueueSourcePostingFamily where
  | scalar (collection : Option String) (field : String)
  | named (collection : Option String) (index : String)
deriving DecidableEq

/-- The first bytes of the keys of one present scalar type. -/
def scalarTypePrefix (kind : FieldType) : List UInt8 := [1, 1, typeTag kind]

namespace QueueSourcePostingFamily

def tag : QueueSourcePostingFamily → UInt8
  | scalar .. => 4
  | named .. => 5

def collection : QueueSourcePostingFamily → Option String
  | scalar collection _ => collection
  | named collection _ => collection

def name : QueueSourcePostingFamily → String
  | scalar _ field => field
  | named _ index => index

def posting (self : QueueSourcePostingFamily) (sort : List UInt8) (key : String) : QueueSourceKey :=
  match self with
  | scalar collection field => .scalarPosting collection field sort key
  | named collection index => .namedPosting collection index sort key

def write (self : QueueSourcePostingFamily) (sort : Option (List UInt8)) (sink : Sink) :
    QueueResult Sink := do
  let sink ← sink.raw [version, self.tag]
  let sink ← Sink.collection sink self.collection
  let sink ← Sink.literal sink (asBytes self.name)
  match sort with
  | some sort => Sink.literal sink sort
  | none => .ok sink

def writeType (self : QueueSourcePostingFamily) (kind : FieldType) (sink : Sink) :
    QueueResult Sink := do
  match self with
  | named .. =>
    .error (.outcomeUnknown "source posting: scalar type bound requested for named index")
  | scalar .. => do
    let sink ← self.write none sink
    Sink.literalPrefix sink (QueueSourceIndex.scalarTypePrefix kind)

def scalarTypePrefix (self : QueueSourcePostingFamily) (kind : FieldType) :
    QueueResult (List UInt8) := do
  let _ ← measured (self.writeType kind)
  written (self.writeType kind)

def valuePrefix (self : QueueSourcePostingFamily) (sort : List UInt8) :
    QueueResult (List UInt8) := do
  let _ ← measured (self.write (some sort))
  written (self.write (some sort))

end QueueSourcePostingFamily

/-! ## What the writers write -/

section Words

open IndexSink

theorem writes_literalPrefix (word : List UInt8) :
    Writes (fun sink => Sink.literalPrefix sink word) (escapedPrefix word) := by
  intro sink out
  have length : (escapedPrefix word).length = word.length + (word.filter (· == 0)).length := by
    have whole := length_escaped word
    rw [escaped, length_append] at whole
    exact Nat.add_right_cancel whole
  change Sink.literalPrefix sink word = .ok out ↔ _
  rw [Sink.literalPrefix, check_bind_eq_ok, rejectIf_eq_ok, check_bind_eq_ok, rejectIf_eq_ok]
  simp only [decide_eq_false_iff_not, Nat.not_le, Except.ok.injEq, emit, length]
  constructor
  · rintro ⟨-, fits, rfl⟩
    exact ⟨fits, rfl⟩
  · rintro ⟨fits, rfl⟩
    exact ⟨by omega, fits, rfl⟩

theorem writes_literal (word : List UInt8) :
    Writes (fun sink => Sink.literal sink word) (escaped word) :=
  (writes_literalPrefix word).seq (writes_raw [0, 0])

/-- A writer that adds nothing more. -/
theorem writes_done {write : Sink → QueueResult Sink} {word : List UInt8}
    (writes : Writes write word) :
    Writes (fun sink => write sink >>= fun sink => .ok sink) (word ++ []) := by
  rw [append_nil]
  intro sink out
  rw [← writes sink out]
  exact Eq.congr_left (bind_pure (write sink))

def collectionWord : Option String → List UInt8
  | none => [0]
  | some name => 1 :: escaped (asBytes name)

theorem writes_collection (collection : Option String) :
    Writes (fun sink => Sink.collection sink collection) (collectionWord collection) := by
  cases collection with
  | none => exact writes_raw [0]
  | some name => exact (writes_raw [1]).seq (writes_literal (asBytes name))

theorem measured_eq {write : Sink → QueueResult Sink} {word : List UInt8}
    (writes : Writes write word) {n : Nat} :
    measured write = .ok n ↔ word.length < 2 ^ 64 ∧ n = word.length := by
  rw [measured, bind_eq_ok]
  constructor
  · rintro ⟨sink, wrote, final⟩
    obtain ⟨fits, rfl⟩ := (writes _ _).mp wrote
    cases final
    simpa [emit] using fits
  · rintro ⟨fits, rfl⟩
    refine ⟨_, (writes _ _).mpr ⟨by simpa using fits, rfl⟩, ?_⟩
    simp [emit]

theorem written_eq {write : Sink → QueueResult Sink} {word out : List UInt8}
    (writes : Writes write word) : written write = .ok out ↔ word.length < 2 ^ 64 ∧ out = word := by
  rw [written, bind_eq_ok]
  constructor
  · rintro ⟨sink, wrote, final⟩
    obtain ⟨fits, rfl⟩ := (writes _ _).mp wrote
    cases final
    simpa [emit] using fits
  · rintro ⟨fits, rfl⟩
    refine ⟨_, (writes _ _).mpr ⟨by simpa using fits, rfl⟩, ?_⟩
    simp [emit]

theorem both_eq {write : Sink → QueueResult Sink} {word out : List UInt8}
    (writes : Writes write word) :
    (measured write >>= fun _ => written write) = .ok out ↔ word.length < 2 ^ 64 ∧ out = word := by
  rw [bind_eq_ok]
  constructor
  · rintro ⟨n, -, wrote⟩
    exact (written_eq writes).mp wrote
  · rintro ⟨fits, rfl⟩
    exact ⟨_, (measured_eq writes).mpr ⟨fits, rfl⟩, (written_eq writes).mpr ⟨fits, rfl⟩⟩

namespace QueueSourceKey

/-- What follows the family byte. -/
def body : QueueSourceKey → List UInt8
  | genesis | sequence => []
  | record collection key => collectionWord collection ++ escaped (asBytes key)
  | field collection key name =>
    collectionWord collection ++ (escaped (asBytes key) ++ escaped (asBytes name))
  | scalarPosting collection name sort key | namedPosting collection name sort key =>
    collectionWord collection ++
      (escaped (asBytes name) ++ (escaped sort ++ escaped (asBytes key)))
  | uniqueOwner collection index sort =>
    collectionWord collection ++ (escaped (asBytes index) ++ escaped sort)
  | original domain requestId => domain :: escaped (asBytes requestId)
  | lifecycleCount lifecycle => [lifecycleTag lifecycle]
  | liveKey collection key => collectionWord collection ++ escaped (asBytes key)
  | workIntrinsic posting key =>
    posting.index.tag :: (posting.sort ++ escaped (asBytes key))

def word (self : QueueSourceKey) : List UInt8 := [version, self.family] ++ self.body

/-- Receipts have one of three domains. -/
def Valid : QueueSourceKey → Prop
  | original domain _ => domain ≤ 2
  | _ => True

variable {self : QueueSourceKey}

theorem writes_write (valid : self.Valid) : Writes self.write self.word := by
  have head := writes_raw [version, self.family]
  cases self with
  | genesis => exact writes_done head
  | sequence => exact writes_done head
  | record collection key =>
    exact head.seq ((writes_collection collection).seq (writes_literal (asBytes key)))
  | field collection key field =>
    exact head.seq ((writes_collection collection).seq
      ((writes_literal (asBytes key)).seq (writes_literal (asBytes field))))
  | scalarPosting collection name sort key =>
    exact head.seq ((writes_collection collection).seq
      ((writes_literal (asBytes name)).seq ((writes_literal sort).seq
        (writes_literal (asBytes key)))))
  | namedPosting collection name sort key =>
    exact head.seq ((writes_collection collection).seq
      ((writes_literal (asBytes name)).seq ((writes_literal sort).seq
        (writes_literal (asBytes key)))))
  | uniqueOwner collection index sort =>
    exact head.seq ((writes_collection collection).seq
      ((writes_literal (asBytes index)).seq (writes_literal sort)))
  | original domain requestId =>
    have small : ¬domain > 2 := not_lt.mpr valid
    refine head.seq (v := domain :: escaped (asBytes requestId)) ?_
    simp only [rejectIf, small, decide_false, Bool.false_eq_true, if_false, ok_bind]
    exact (writes_raw [domain]).seq (writes_literal (asBytes requestId))
  | lifecycleCount lifecycle => exact head.seq (writes_raw [lifecycleTag lifecycle])
  | liveKey collection key =>
    exact head.seq ((writes_collection collection).seq (writes_literal (asBytes key)))
  | workIntrinsic posting key =>
    exact head.seq ((writes_raw [posting.index.tag]).seq
      ((writes_raw posting.sort).seq (writes_literal (asBytes key))))

theorem valid_of_write {sink out : Sink} (wrote : self.write sink = .ok out) : self.Valid := by
  cases self with
  | original domain requestId =>
    obtain ⟨next, -, rest⟩ := bind_eq_ok.mp wrote
    have checked := rejectIf_eq_ok.mp (check_bind_eq_ok.mp rest).1
    exact not_lt.mp (of_decide_eq_false checked)
  | _ => trivial

/-- A key is encoded unless its domain is invalid or its length overflows. -/
theorem encode_eq_ok {out : List UInt8} :
    self.encode = .ok out ↔ self.Valid ∧ self.word.length < 2 ^ 64 ∧ out = self.word := by
  constructor
  · intro encoded
    obtain ⟨n, measures, wrote⟩ := bind_eq_ok.mp encoded
    obtain ⟨sink, first, -⟩ := bind_eq_ok.mp wrote
    have valid := valid_of_write first
    exact ⟨valid, (written_eq (writes_write valid)).mp wrote⟩
  · rintro ⟨valid, fits⟩
    exact (both_eq (writes_write valid)).mpr fits

theorem encodedLen_eq_ok {n : Nat} :
    self.encodedLen = .ok n ↔ self.Valid ∧ self.word.length < 2 ^ 64 ∧ n = self.word.length := by
  constructor
  · intro encoded
    obtain ⟨sink, first, -⟩ := bind_eq_ok.mp encoded
    have valid := valid_of_write first
    exact ⟨valid, (measured_eq (writes_write valid)).mp encoded⟩
  · rintro ⟨valid, fits⟩
    exact (measured_eq (writes_write valid)).mpr fits

end QueueSourceKey

end Words

/-! ## Keys are read in one way -/

theorem asBytes_injective : Function.Injective asBytes := by
  intro s t same
  exact String.toByteArray_inj.mp (ByteArray.ext (Array.toList_inj.mp same))

theorem unambiguous_escaped : Unambiguous escaped := fun _ _ _ _ => escaped_append_inj

theorem unambiguous_literal : Unambiguous fun s => escaped (asBytes s) := by
  intro s t u v same
  obtain ⟨bytes, rest⟩ := escaped_append_inj same
  exact ⟨asBytes_injective bytes, rest⟩

theorem unambiguous_collection : Unambiguous collectionWord := by
  intro a b u v same
  cases a with
  | none =>
    cases b with
    | none => exact ⟨rfl, by simpa [collectionWord] using same⟩
    | some name => simp [collectionWord] at same
  | some name =>
    cases b with
    | none => simp [collectionWord] at same
    | some other =>
      obtain ⟨names, rest⟩ := unambiguous_literal name other u v (cons.inj same).2
      exact ⟨congrArg some names, rest⟩

/-- A code word and a prefix of what follows it. -/
theorem append_isPrefix_iff {α : Type} {encode : α → List UInt8} (unambiguous : Unambiguous encode)
    {a b : α} {u v : List UInt8} : encode a ++ u <+: encode b ++ v ↔ a = b ∧ u <+: v := by
  constructor
  · rintro ⟨rest, whole⟩
    rw [append_assoc] at whole
    obtain ⟨same, tail⟩ := unambiguous a b _ _ whole
    exact ⟨same, rest, tail⟩
  · rintro ⟨rfl, rest, rfl⟩
    exact ⟨rest, by rw [append_assoc]⟩

namespace QueueSourceKey

theorem word_injective {a b : QueueSourceKey} (same : a.word = b.word) : a = b := by
  have heads : a.family = b.family ∧ a.body = b.body := by
    simpa [word] using same
  obtain ⟨families, bodies⟩ := heads
  cases a <;> cases b <;>
    first | (exfalso; revert families; simp only [family]; decide) | skip
  case genesis.genesis => rfl
  case sequence.sequence => rfl
  case record.record c k c' k' =>
    obtain ⟨rfl, keys⟩ := unambiguous_collection c c' _ _ bodies
    rw [unambiguous_literal.injective keys]
  case field.field c k f c' k' f' =>
    obtain ⟨rfl, rest⟩ := unambiguous_collection c c' _ _ bodies
    obtain ⟨rfl, fields⟩ := unambiguous_literal k k' _ _ rest
    rw [unambiguous_literal.injective fields]
  case scalarPosting.scalarPosting c f s k c' f' s' k' =>
    obtain ⟨rfl, rest⟩ := unambiguous_collection c c' _ _ bodies
    obtain ⟨rfl, sorted⟩ := unambiguous_literal f f' _ _ rest
    obtain ⟨rfl, keys⟩ := unambiguous_escaped s s' _ _ sorted
    rw [unambiguous_literal.injective keys]
  case namedPosting.namedPosting c f s k c' f' s' k' =>
    obtain ⟨rfl, rest⟩ := unambiguous_collection c c' _ _ bodies
    obtain ⟨rfl, sorted⟩ := unambiguous_literal f f' _ _ rest
    obtain ⟨rfl, keys⟩ := unambiguous_escaped s s' _ _ sorted
    rw [unambiguous_literal.injective keys]
  case uniqueOwner.uniqueOwner c i s c' i' s' =>
    obtain ⟨rfl, rest⟩ := unambiguous_collection c c' _ _ bodies
    obtain ⟨rfl, sorts⟩ := unambiguous_literal i i' _ _ rest
    rw [unambiguous_escaped.injective sorts]
  case original.original d r d' r' =>
    obtain ⟨rfl, requests⟩ := cons.inj bodies
    rw [unambiguous_literal.injective requests]
  case lifecycleCount.lifecycleCount l l' =>
    cases l <;> cases l' <;> first | rfl | (exact absurd bodies (by decide))
  case liveKey.liveKey c k c' k' =>
    obtain ⟨rfl, keys⟩ := unambiguous_collection c c' _ _ bodies
    rw [unambiguous_literal.injective keys]
  case workIntrinsic.workIntrinsic p k p' k' =>
    obtain ⟨index, sort, sized⟩ := p
    obtain ⟨index', sort', sized'⟩ := p'
    obtain ⟨tags, rest⟩ := cons.inj bodies
    obtain rfl := QueueSourceWorkIndex.tag_injective tags
    obtain ⟨rfl, keys⟩ := append_inj rest (sized.trans sized'.symm)
    rw [unambiguous_literal.injective keys]

theorem encode_injective {a b : QueueSourceKey} {out : List UInt8} (first : a.encode = .ok out)
    (second : b.encode = .ok out) : a = b :=
  word_injective ((encode_eq_ok.mp first).2.2.symm.trans (encode_eq_ok.mp second).2.2)

end QueueSourceKey

/-! ## Ranges -/

/-- The terminator ends a literal whatever follows it. -/
theorem escapedPrefix_isPrefix_iff {p f : List UInt8} (rest : List UInt8) :
    escapedPrefix p <+: escaped f ++ rest ↔ p <+: f := by
  have zero : ∀ p : List UInt8, escapedPrefix (0 :: p) = 0 :: 255 :: escapedPrefix p := by
    simp [escapedPrefix]
  have other : ∀ (x : UInt8) (p : List UInt8), x ≠ 0 →
      escapedPrefix (x :: p) = x :: escapedPrefix p := by
    intro x p nonzero
    simp [escapedPrefix, nonzero]
  induction p generalizing f with
  | nil => simp [escapedPrefix]
  | cons x p ih =>
    cases f with
    | nil =>
      by_cases left : x = 0
      · simp [left, escaped, escapedPrefix]
      · simp [escaped, escapedPrefix, left]
    | cons y f =>
      rw [cons_prefix_cons]
      by_cases left : x = 0 <;> by_cases right : y = 0
      · simp [left, right, zero, escaped_cons_zero, ih]
      · simp [left, zero, escaped_cons right, Ne.symm right]
      · simp [right, other x p left, escaped_cons_zero, left]
      · simp [other x p left, escaped_cons right, ih]

/-- A string starts with another one exactly when its bytes do. -/
theorem startsWith_iff (s pre : String) : startsWith s pre = true ↔ asBytes pre <+: asBytes s := by
  have bytes : ∀ t : String, asBytes t = t.toList.utf8Encode.data.toList := by
    intro t
    rw [String.utf8Encode_toList]
    rfl
  rw [startsWith, isPrefixOf_iff_prefix]
  constructor
  · rintro ⟨rest, whole⟩
    refine ⟨rest.utf8Encode.data.toList, ?_⟩
    rw [bytes, bytes, ← whole]
    simp
  · rintro ⟨rest, whole⟩
    refine isPrefix_of_utf8Encode_append_eq_utf8Encode ⟨rest.toArray⟩ ?_
    rw [bytes, bytes] at whole
    refine ByteArray.ext (Array.toList_inj.mp ?_)
    simpa using whole

/-- The version byte leaves room for an upper bound. -/
theorem exists_prefixSuccessor {word rest : List UInt8} (starts : word = version :: rest) :
    ∃ upper, prefixSuccessor word = some upper := by
  rw [starts, prefixSuccessor_cons]
  cases prefixSuccessor rest with
  | some upper => exact ⟨_, rfl⟩
  | none => exact ⟨[2], rfl⟩

section Prefixes

open IndexSink

theorem recordFieldNamePrefix_eq_ok {collection : Option String} {key pre : String}
    {out : List UInt8} (written : recordFieldNamePrefix collection key pre = .ok out) :
    out = [version, 3] ++
      (collectionWord collection ++ (escaped (asBytes key) ++ escapedPrefix (asBytes pre))) := by
  obtain ⟨n, -, wrote⟩ := bind_eq_ok.mp written
  have writes := ((writes_raw [version, 3]).seq ((writes_collection collection).seq
    (writes_literal (asBytes key)))).seq (writes_literalPrefix (asBytes pre))
  rw [((written_eq writes).mp wrote).2]
  simp only [append_assoc]

theorem liveKeysPrefix_eq_ok {collection : Option String} {out : List UInt8}
    (written : liveKeysPrefix collection = .ok out) :
    out = [version, 10] ++ collectionWord collection :=
  ((both_eq ((writes_raw [version, 10]).seq (writes_collection collection))).mp written).2

namespace QueueSourcePostingFamily

/-- The bytes before the sort. -/
def word (self : QueueSourcePostingFamily) : List UInt8 :=
  [version, self.tag] ++ (collectionWord self.collection ++ escaped (asBytes self.name))

theorem unambiguous_word : Unambiguous word := by
  intro a b u v same
  simp only [word, append_assoc, cons_append, nil_append, cons.injEq, true_and] at same
  obtain ⟨tags, rest⟩ := same
  obtain ⟨collections, rest'⟩ := unambiguous_collection _ _ _ _ rest
  obtain ⟨names, tail⟩ := unambiguous_literal _ _ _ _ rest'
  refine ⟨?_, tail⟩
  cases a <;> cases b <;> simp_all [tag, collection, name]

section

variable (self : QueueSourcePostingFamily) (sort : List UInt8)

include self sort

theorem posting_word (key : String) :
    (self.posting sort key).word = self.word ++ (escaped sort ++ escaped (asBytes key)) := by
  cases self <;> simp [posting, QueueSourceKey.word, QueueSourceKey.body, QueueSourceKey.family,
    word, tag, collection, name]

theorem posting_valid (key : String) : (self.posting sort key).Valid := by
  cases self <;> trivial

theorem writes_write : Writes (self.write (some sort)) (self.word ++ escaped sort) := by
  have shape : self.word ++ escaped sort = [version, self.tag] ++
      (collectionWord self.collection ++ (escaped (asBytes self.name) ++ escaped sort)) := by
    simp only [word, append_assoc]
  rw [shape]
  exact (writes_raw [version, self.tag]).seq ((writes_collection self.collection).seq
    ((writes_literal (asBytes self.name)).seq (writes_literal sort)))

end

theorem writes_writeType (collection : Option String) (field : String) (kind : FieldType) :
    Writes ((scalar collection field).writeType kind)
      ((scalar collection field).word ++
        escapedPrefix (QueueSourceIndex.scalarTypePrefix kind)) := by
  have shape : (scalar collection field).word = [version, 4] ++
      (collectionWord collection ++ (escaped (asBytes field) ++ [])) := by
    rw [append_nil]
    rfl
  rw [shape]
  exact ((writes_raw [version, 4]).seq ((writes_collection collection).seq
    (writes_done (writes_literal (asBytes field))))).seq
      (writes_literalPrefix (QueueSourceIndex.scalarTypePrefix kind))

theorem valuePrefix_eq_ok {self : QueueSourcePostingFamily} {sort out : List UInt8} :
    self.valuePrefix sort = .ok out ↔
      (self.word ++ escaped sort).length < 2 ^ 64 ∧ out = self.word ++ escaped sort :=
  both_eq (self.writes_write sort)

theorem scalarTypePrefix_eq_ok {collection : Option String} {field : String} {kind : FieldType}
    {out : List UInt8} :
    (scalar collection field).scalarTypePrefix kind = .ok out ↔
      ((scalar collection field).word ++
        escapedPrefix (QueueSourceIndex.scalarTypePrefix kind)).length < 2 ^ 64 ∧
      out = (scalar collection field).word ++
        escapedPrefix (QueueSourceIndex.scalarTypePrefix kind) :=
  both_eq (writes_writeType collection field kind)

end QueueSourcePostingFamily

end Prefixes

/-- The key of a single component starts with its presence and its type. -/
theorem orderedKey_single {v : Option FieldValue} {sort : List UInt8}
    (encoded : orderedKey [v] = .ok sort) (kind : FieldType) :
    scalarTypePrefix kind <+: sort ↔ ∃ value, v = some value ∧ value.fieldType = kind := by
  obtain ⟨words, components, final⟩ := bind_eq_ok.mp encoded
  cases final
  obtain ⟨word, single, rfl⟩ : ∃ word, component v = .ok word ∧ words = [word] := by
    rw [mapM_eq_ok] at components
    cases components with
    | cons head tail =>
      cases tail
      exact ⟨_, head, rfl⟩
  cases v with
  | none =>
    cases single
    simp [scalarTypePrefix]
  | some value =>
    obtain ⟨bytes, scalars, final⟩ := bind_eq_ok.mp single
    cases final
    obtain ⟨payload, rfl⟩ := scalar_tag scalars
    simp [scalarTypePrefix, typeTag_injective.eq_iff, eq_comm]

section Exactness

variable {lower upper w : List UInt8}

variable {collection' : Option String}

open QueueSourceKey

theorem within_fields {collection : Option String} {key key' pre name : String}
    (bound : recordFieldNamePrefix collection key pre = .ok lower)
    (next : prefixSuccessor lower = some upper)
    (encoded : (field collection' key' name).encode = .ok w) :
    Within lower upper w ↔ collection' = collection ∧ key' = key ∧ startsWith name pre = true := by
  rw [within_iff_isPrefix next, (encode_eq_ok.mp encoded).2.2, recordFieldNamePrefix_eq_ok bound]
  change version :: 3 :: (collectionWord collection ++ _) <+:
    version :: 3 :: (collectionWord collection' ++ _) ↔ _
  have names := escapedPrefix_isPrefix_iff (p := asBytes pre) (f := asBytes name) []
  rw [append_nil] at names
  rw [cons_prefix_cons, cons_prefix_cons, append_isPrefix_iff unambiguous_collection,
    append_isPrefix_iff unambiguous_literal, names, startsWith_iff]
  simp only [true_and, eq_comm]

open QueueSourcePostingFamily

/-- The range of a value: its postings, with the postings of smaller and greater values of the
family on either side. -/
theorem within_value {family family' : QueueSourcePostingFamily} {sort sort' : List UInt8}
    {key : String} (bound : family.valuePrefix sort = .ok lower)
    (next : prefixSuccessor lower = some upper)
    (encoded : (family'.posting sort' key).encode = .ok w) :
    Within lower upper w ↔ family' = family ∧ sort' = sort := by
  rw [within_iff_isPrefix next, (encode_eq_ok.mp encoded).2.2, (valuePrefix_eq_ok.mp bound).2,
    posting_word, append_isPrefix_iff unambiguous_word]
  have unit : escaped sort = escaped sort ++ [] := by simp
  rw [unit, append_isPrefix_iff unambiguous_escaped]
  simp [eq_comm]

theorem parts_value (family : QueueSourcePostingFamily) (sort sort' : List UInt8) :
    Parts (family.word ++ escaped sort') (family.word ++ escaped sort) (compare sort' sort) :=
  (Parts.refl family.word).append (parts_escaped sort' sort)

theorem beside_value {family : QueueSourcePostingFamily} {sort sort' : List UInt8} {key : String}
    (bound : family.valuePrefix sort = .ok lower) (next : prefixSuccessor lower = some upper)
    (encoded : (family.posting sort' key).encode = .ok w) :
    (compare w lower = .lt ↔ compare sort' sort = .lt) ∧
      (compare w upper ≠ .lt ↔ compare sort' sort = .gt) := by
  rw [(valuePrefix_eq_ok.mp bound).2] at next ⊢
  rw [(encode_eq_ok.mp encoded).2.2, posting_word, ← append_assoc]
  exact ⟨below_iff (parts_value family sort sort') _,
    above_iff (parts_value family sort sort') next _⟩

/-- The range of a present type. -/
theorem within_type {collection : Option String} {field key : String} {kind : FieldType}
    {family : QueueSourcePostingFamily} {sort : List UInt8}
    (bound : (scalar collection field).scalarTypePrefix kind = .ok lower)
    (next : prefixSuccessor lower = some upper)
    (encoded : (family.posting sort key).encode = .ok w) :
    Within lower upper w ↔ family = .scalar collection field ∧ scalarTypePrefix kind <+: sort := by
  rw [within_iff_isPrefix next, (encode_eq_ok.mp encoded).2.2, (scalarTypePrefix_eq_ok.mp bound).2,
    posting_word, append_isPrefix_iff unambiguous_word, eq_comm, escapedPrefix_isPrefix_iff]

theorem within_liveKeys {collection : Option String} {key : String}
    (bound : liveKeysPrefix collection = .ok lower) (next : prefixSuccessor lower = some upper)
    (encoded : (liveKey collection' key).encode = .ok w) :
    Within lower upper w ↔ collection' = collection := by
  have unit : collectionWord collection = collectionWord collection ++ [] := by simp
  rw [within_iff_isPrefix next, (encode_eq_ok.mp encoded).2.2, liveKeysPrefix_eq_ok bound]
  change version :: 10 :: collectionWord collection <+:
    version :: 10 :: (collectionWord collection' ++ _) ↔ _
  rw [cons_prefix_cons, cons_prefix_cons, unit, append_isPrefix_iff unambiguous_collection]
  simp [eq_comm]

end Exactness

/-- Source keys are injective, have the measured length, and the ranges of prefixes hold what they
name: the fields of a record whose names start with a prefix, the postings of a value (smaller
values lie below, greater ones above), the postings whose sort starts with a type (for the sort of
a value: those whose value is present and of the type), the live keys of a collection. -/
theorem source_ranges_exact :
    (∀ (a b : QueueSourceKey) w, a.encode = .ok w → b.encode = .ok w → a = b) ∧
    (∀ (a : QueueSourceKey) w, a.encode = .ok w → a.encodedLen = .ok w.length) ∧
    (∀ collection key pre lower, recordFieldNamePrefix collection key pre = .ok lower →
      ∃ upper, prefixSuccessor lower = some upper ∧ ∀ collection' key' name w,
        (QueueSourceKey.field collection' key' name).encode = .ok w →
          (Within lower upper w ↔
            collection' = collection ∧ key' = key ∧ startsWith name pre = true)) ∧
    (∀ (family : QueueSourcePostingFamily) sort lower, family.valuePrefix sort = .ok lower →
      ∃ upper, prefixSuccessor lower = some upper ∧
        ∀ (family' : QueueSourcePostingFamily) sort' key w,
          (family'.posting sort' key).encode = .ok w →
            (Within lower upper w ↔ family' = family ∧ sort' = sort) ∧
            (family' = family →
              (compare w lower = .lt ↔ compare sort' sort = .lt) ∧
              (compare w upper ≠ .lt ↔ compare sort' sort = .gt))) ∧
    (∀ collection field kind lower,
      (QueueSourcePostingFamily.scalar collection field).scalarTypePrefix kind = .ok lower →
      ∃ upper, prefixSuccessor lower = some upper ∧
        ∀ (family' : QueueSourcePostingFamily) sort' key w,
          (family'.posting sort' key).encode = .ok w →
            (Within lower upper w ↔
              family' = .scalar collection field ∧ scalarTypePrefix kind <+: sort') ∧
            ∀ value, orderedKey [value] = .ok sort' →
              (Within lower upper w ↔ family' = .scalar collection field ∧
                ∃ present, value = some present ∧ present.fieldType = kind)) ∧
    ∀ collection lower, liveKeysPrefix collection = .ok lower →
      ∃ upper, prefixSuccessor lower = some upper ∧ ∀ collection' key w,
        (QueueSourceKey.liveKey collection' key).encode = .ok w →
          (Within lower upper w ↔ collection' = collection) := by
  refine ⟨?_, ?_, ?_, ?_, ?_, ?_⟩
  · exact fun a b w => QueueSourceKey.encode_injective
  · intro a w encoded
    obtain ⟨valid, fits, rfl⟩ := QueueSourceKey.encode_eq_ok.mp encoded
    exact QueueSourceKey.encodedLen_eq_ok.mpr ⟨valid, fits, rfl⟩
  · intro collection key pre lower bound
    obtain ⟨upper, next⟩ := exists_prefixSuccessor (recordFieldNamePrefix_eq_ok bound)
    exact ⟨upper, next, fun collection' key' name w => within_fields bound next⟩
  · intro family sort lower bound
    obtain ⟨upper, next⟩ :=
      exists_prefixSuccessor (QueueSourcePostingFamily.valuePrefix_eq_ok.mp bound).2
    refine ⟨upper, next, fun family' sort' key w encoded => ⟨within_value bound next encoded, ?_⟩⟩
    rintro rfl
    exact beside_value bound next encoded
  · intro collection field kind lower bound
    obtain ⟨upper, next⟩ :=
      exists_prefixSuccessor (QueueSourcePostingFamily.scalarTypePrefix_eq_ok.mp bound).2
    refine ⟨upper, next, fun family' sort' key w encoded =>
      ⟨within_type bound next encoded, fun value sorted => ?_⟩⟩
    rw [within_type bound next encoded, orderedKey_single sorted]
  · intro collection lower bound
    obtain ⟨upper, next⟩ := exists_prefixSuccessor (liveKeysPrefix_eq_ok bound)
    exact ⟨upper, next, fun collection' key w => within_liveKeys bound next⟩

/-- The field "meta/x" of a record is in the range of "meta/", the field "other" is not. -/
theorem source_ranges_exact_meta :
    ∃ lower upper inside outside, recordFieldNamePrefix none "a" "meta/" = .ok lower ∧
      prefixSuccessor lower = some upper ∧
      (QueueSourceKey.field none "a" "meta/x").encode = .ok inside ∧
      (QueueSourceKey.field none "a" "other").encode = .ok outside ∧
      Within lower upper inside ∧ ¬Within lower upper outside := by
  have bound : recordFieldNamePrefix none "a" "meta/" =
      .ok [1, 3, 0, 97, 0, 0, 109, 101, 116, 97, 47] := by decide +kernel
  have first : (QueueSourceKey.field none "a" "meta/x").encode =
      .ok [1, 3, 0, 97, 0, 0, 109, 101, 116, 97, 47, 120, 0, 0] := by decide +kernel
  have second : (QueueSourceKey.field none "a" "other").encode =
      .ok [1, 3, 0, 97, 0, 0, 111, 116, 104, 101, 114, 0, 0] := by decide +kernel
  obtain ⟨upper, next, fields⟩ := source_ranges_exact.2.2.1 none "a" "meta/" _ bound
  refine ⟨_, upper, _, _, bound, next, first, second, ?_, ?_⟩
  · rw [fields _ _ _ _ first]
    decide +kernel
  · rw [fields _ _ _ _ second]
    decide +kernel

/-- A sort that is cut after its type lies in the range of the type, but encodes no value. -/
theorem cut_sort_within_type :
    ∃ lower upper w,
      (QueueSourcePostingFamily.scalar none "f").scalarTypePrefix .integer = .ok lower ∧
      prefixSuccessor lower = some upper ∧
      ((QueueSourcePostingFamily.scalar none "f").posting [1, 1, 0] "a").encode = .ok w ∧
      Within lower upper w ∧ ∀ value, orderedKey [some value] ≠ .ok [1, 1, 0] := by
  refine ⟨[1, 4, 0, 102, 0, 0, 1, 1, 0, 255], [1, 4, 0, 102, 0, 0, 1, 1, 1],
    [1, 4, 0, 102, 0, 0, 1, 1, 0, 255, 0, 0, 97, 0, 0], by decide +kernel, by decide +kernel,
    by decide +kernel, by decide +kernel, fun value encoded => ?_⟩
  obtain ⟨words, components, final⟩ := bind_eq_ok.mp encoded
  rw [mapM_eq_ok] at components
  obtain ⟨⟩ | ⟨head, ⟨⟩⟩ := components
  obtain ⟨bytes, scalars, word⟩ := bind_eq_ok.mp head
  cases word
  have tagged : bytes = [0] := by simpa using Except.ok.inj final
  subst tagged
  cases value with
  | integer n =>
    have long := congrArg length (Except.ok.inj scalars)
    simp [beBytes_length] at long
  | float x => exact absurd (float_scalar scalars) (by simp)
  | boolean b => exact absurd (Except.ok.inj scalars) (by simp)
  | text s => exact absurd (Except.ok.inj scalars) (by simp)
  | bytes b => exact absurd (Except.ok.inj scalars) (by simp)

end QueueSourceIndex
