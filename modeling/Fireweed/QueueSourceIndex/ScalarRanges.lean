import Fireweed.QueueContract.Admission
import Fireweed.QueueSourceIndex.Keys

/-!
# Ranges of scalar predicates

A predicate on one field is answered from the postings of that field. Its values and
bounds become prefixes of posting keys and their successors, open bounds the prefix
of a type. The ranges hold exactly the postings of the values that match.
-/

namespace QueueSourceIndex

open BTree ByteOrder Checked List Postcard PrefixRanges QueueContract QueueIndex Std ReflOrd

structure QueueSourceScalarRange where
  lower : List UInt8
  upper : List UInt8
  kind : FieldType
deriving DecidableEq

def QueueSourceScalarRange.Contains (range : QueueSourceScalarRange) (key : List UInt8) : Prop :=
  Within range.lower range.upper key

instance (range : QueueSourceScalarRange) (key : List UInt8) : Decidable (range.Contains key) :=
  inferInstanceAs (Decidable (Within _ _ _))

def planUnknown (reason : String) : QueueError := .outcomeUnknown ("source scalar plan: " ++ reason)

/-- The result of a checked operation on 64-bit numbers. -/
def checkedSize (n : Nat) : QueueResult Nat := do
  rejectIf (decide (2 ^ 64 ≤ n)) .tooLarge
  .ok n

/-- Charge a buffer to what the operation still admits. -/
def ownedBuffer (free bytes : Nat) : QueueResult Unit :=
  rejectIf (decide (free < bytes))
    (.outcomeUnknown "admitted buffer capacity exhausted; resolve owned operation")

def QueueSourcePostingFamily.prefixLen (self : QueueSourcePostingFamily) : QueueResult Nat :=
  measured (self.write none)

/-- The number of values of a predicate that get a range of their own. -/
def rangeCount : Predicate → Nat
  | .in_ values => values.length
  | _ => 1

def scalarPlanCapacity (family : QueueSourcePostingFamily) (predicate : Predicate) :
    QueueResult Nat := do
  let n ← checkedSize ((serialize predicate).length * 32)
  let pre ← family.prefixLen.mapError fun _ => QueueError.tooLarge
  let twice ← checkedSize (pre * 2)
  let per ← checkedSize (twice + 512)
  let extra ← checkedSize (per * rangeCount predicate)
  let sum ← checkedSize (n + extra)
  checkedSize (sum + 4096)

/-- The declaration of a collection, or of work. -/
def declarationOf (schema : QueueSchema) (missing : String) :
    Option String → QueueResult CollectionDefinition
  | none => .ok schema.work
  | some name =>
    match schema.state[name]? with
    | some declaration => .ok declaration
    | none => .error (planUnknown missing)

def successor (bytes : List UInt8) : QueueResult (List UInt8) :=
  match prefixSuccessor bytes with
  | some upper => .ok upper
  | none => .error (planUnknown "range has no finite upper bound")

def valuePrefix (family : QueueSourcePostingFamily) (value : FieldValue) :
    QueueResult (List UInt8) := do
  let _ ← writeValues [some value] none
  let sort ← writtenKey [some value]
  family.valuePrefix sort

def equal (family : QueueSourcePostingFamily) (value : FieldValue) :
    QueueResult QueueSourceScalarRange := do
  let lower ← valuePrefix family value
  let upper ← successor lower
  .ok ⟨lower, upper, value.fieldType⟩

/-- `dedup_by` on the lower bounds. -/
def dedupByLower : List QueueSourceScalarRange → List QueueSourceScalarRange
  | a :: b :: rest =>
    if a.lower = b.lower then dedupByLower (a :: rest) else a :: dedupByLower (b :: rest)
  | ranges => ranges
termination_by ranges => ranges.length

def lowBound (family : QueueSourcePostingFamily) (kind : FieldType) :
    Option Bound → QueueResult (List UInt8)
  | some (.included value) => valuePrefix family value
  | some (.excluded value) => do
    let bytes ← valuePrefix family value
    successor bytes
  | none => family.scalarTypePrefix kind

def highBound (family : QueueSourcePostingFamily) (kind : FieldType) :
    Option Bound → QueueResult (List UInt8)
  | some (.included value) => do
    let bytes ← valuePrefix family value
    successor bytes
  | some (.excluded value) => valuePrefix family value
  | none => do
    let bytes ← family.scalarTypePrefix kind
    successor bytes

def rangesOf (family : QueueSourcePostingFamily) :
    Predicate → QueueResult (List QueueSourceScalarRange)
  | .equal value => do
    let range ← equal family value
    .ok [range]
  | .in_ values => do
    let ranges ← values.mapM (equal family)
    .ok (dedupByLower (ranges.mergeSort fun a b => (compare a.lower b.lower).isLE))
  | .range lower upper =>
    match lower.or upper with
    | none => .error (planUnknown "empty range")
    | some bound => do
      let kind := bound.value.fieldType
      let low ← lowBound family kind lower
      let high ← highBound family kind upper
      .ok (if compare low high = .lt then [⟨low, high, kind⟩] else [])

/-- The ranges of a predicate; `free` is what the operation admits. -/
def planSourceScalarRanges (schema : QueueSchema) (free : Nat) (collection : Option String)
    (field : String) (predicate : Predicate) : QueueResult (List QueueSourceScalarRange) := do
  let declaration ← declarationOf schema "collection differs" collection
  validateFieldPredicate declaration field predicate
  let family := QueueSourcePostingFamily.scalar collection field
  let capacity ← scalarPlanCapacity family predicate
  ownedBuffer free capacity
  rangesOf family predicate

def presencePlanCapacity (family : QueueSourcePostingFamily) : QueueResult Nat := do
  let pre ← family.prefixLen
  let padded ← checkedSize (pre + 32)
  let ten ← checkedSize (padded * 10)
  checkedSize (ten + 4096)

def fieldTypes : List FieldType := [.integer, .float, .boolean, .text, .bytes]

def typeRange (family : QueueSourcePostingFamily) (kind : FieldType) :
    QueueResult QueueSourceScalarRange := do
  let lower ← family.scalarTypePrefix kind
  let upper ← successor lower
  .ok ⟨lower, upper, kind⟩

/-- Whether a declared type excludes this one. -/
def otherwiseDeclared (declaration : CollectionDefinition) (field : String) (kind : FieldType) :
    Bool :=
  declaration.fields[field]?.any fun expected => expected != kind

def planSourcePresenceRanges (schema : QueueSchema) (free : Nat) (collection : Option String)
    (field : String) : QueueResult (List QueueSourceScalarRange) := do
  let declaration ← declarationOf schema "presence collection differs" collection
  rejectIf (!declaration.admitsField field) (planUnknown "presence field is undeclared")
  let family := QueueSourcePostingFamily.scalar collection field
  let capacity ← presencePlanCapacity family
  ownedBuffer free capacity
  (fieldTypes.filter fun kind => !otherwiseDeclared declaration field kind).mapM (typeRange family)

/-! ## Sorts of values -/

def SortOf (value : FieldValue) (sort : List UInt8) : Prop := orderedKey [some value] = .ok sort

theorem SortOf.tag {value : FieldValue} {sort : List UInt8} (sorted : SortOf value sort) :
    ∃ payload, sort = 1 :: 1 :: typeTag value.fieldType :: payload := by
  have starts := (orderedKey_single sorted value.fieldType).mpr ⟨value, rfl, rfl⟩
  obtain ⟨payload, whole⟩ := starts
  exact ⟨payload, whole.symm⟩

variable {v l : FieldValue} {kind : FieldType} {s t : List UInt8}
  {family : QueueSourcePostingFamily} {range : QueueSourceScalarRange} {predicate : Predicate}

/-- Sorts of one type compare as the values do. -/
theorem SortOf.compare_same (first : SortOf v s) (second : SortOf l t)
    (left : field v kind = .ok ()) (right : field l kind = .ok ()) :
    compareFields v l = some (compare s t) := by
  have fits : ∀ {x : FieldValue}, field x kind = .ok () → Forall₂ Fits [kind] [some x] := by
    intro x valid
    refine .cons ?_ .nil
    rintro y ⟨⟩
    exact valid
  obtain ⟨u, w, o, keyed, keyed', order, parts⟩ := parts_orderedKey (fits left) (fits right)
  obtain rfl := Except.ok.inj (first.symm.trans keyed)
  obtain rfl := Except.ok.inj (second.symm.trans keyed')
  rw [parts.compare_eq]
  change ((compareFields v l).bind fun first => some (first.then .eq)) = some o at order
  cases compared : compareFields v l with
  | none =>
    rw [compared] at order
    cases order
  | some first =>
    rw [compared] at order
    rw [← Option.some.inj order]
    cases first <;> rfl

theorem compareFields_other (differ : v.fieldType ≠ l.fieldType) : compareFields v l = none := by
  cases v <;> cases l <;> first | rfl | exact absurd rfl differ

/-- Sorts of different types compare as the types do. -/
theorem SortOf.compare_other (first : SortOf v s) (second : SortOf l t)
    (differ : v.fieldType ≠ l.fieldType) :
    compare s t = compare (typeTag v.fieldType) (typeTag l.fieldType) := by
  obtain ⟨p, rfl⟩ := first.tag
  obtain ⟨q, rfl⟩ := second.tag
  have apart : compare (typeTag v.fieldType) (typeTag l.fieldType) ≠ .eq :=
    fun same => differ (typeTag_injective (LawfulEqOrd.eq_of_compare same))
  rw [List.compare_cons_cons, List.compare_cons_cons, List.compare_cons_cons, compare_self]
  cases order : compare (typeTag v.fieldType) (typeTag l.fieldType) with
  | eq => exact absurd order apart
  | lt => rfl
  | gt => rfl

/-- Values are equal exactly when their sorts are. -/
theorem SortOf.equal_iff (first : SortOf v s) (second : SortOf l t)
    (left : field v v.fieldType = .ok ()) (right : field l l.fieldType = .ok ()) :
    compareFields v l = some .eq ↔ compare s t = .eq := by
  by_cases same : v.fieldType = l.fieldType
  · rw [first.compare_same second left (same ▸ right), Option.some.injEq]
  · rw [compareFields_other same, first.compare_other second same]
    constructor
    · intro impossible
      cases impossible
    · intro equal
      exact absurd (typeTag_injective (LawfulEqOrd.eq_of_compare equal)) same

theorem exists_sortOf (valid : field v v.fieldType = .ok ()) : ∃ s, SortOf v s := by
  have fits : Forall₂ Fits [v.fieldType] [some v] := by
    refine .cons ?_ .nil
    rintro y ⟨⟩
    exact valid
  obtain ⟨u, -, -, keyed, -⟩ := parts_orderedKey fits fits
  exact ⟨u, keyed⟩

/-! ## Where a posting lies -/

/-- A key is below, in or above the range from `lower` to `upper`. -/
structure Placed (key lower upper : List UInt8) (o : Ordering) : Prop where
  below : compare key lower = .lt ↔ o = .lt
  above : compare key upper = .lt ↔ o ≠ .gt

theorem ge_iff (a b : List UInt8) : compare a b ≠ .gt ↔ compare b a ≠ .lt := by
  rw [OrientedOrd.eq_swap (a := a) (b := b)]
  cases compare b a <;> decide

section

variable {key lower upper : List UInt8} {o : Ordering} (placed : Placed key lower upper o)

include placed

theorem Placed.from_lower : compare lower key ≠ .gt ↔ o ≠ .lt := by
  rw [ge_iff, ne_eq, placed.below]

theorem Placed.from_upper : compare upper key ≠ .gt ↔ o = .gt := by
  rw [ge_iff, ne_eq, placed.above]
  cases o <;> decide

theorem Placed.within : Within lower upper key ↔ o = .eq := by
  rw [Within, placed.from_lower, placed.above]
  cases o <;> decide

end

theorem successor_eq_ok {bytes upper : List UInt8} :
    successor bytes = .ok upper ↔ prefixSuccessor bytes = some upper := by
  rw [successor]
  cases prefixSuccessor bytes <;> simp

theorem parts_scalarTypePrefix (x y : FieldType) :
    Parts (escapedPrefix (scalarTypePrefix x)) (escapedPrefix (scalarTypePrefix y))
      (compare (typeTag x) (typeTag y)) := by
  by_cases same : x = y
  · subst same
    rw [compare_self]
    exact .refl _
  · refine .cons 1 (.cons 1 ?_)
    cases x <;> cases y <;> first | exact absurd rfl same | exact .part (by decide) _ _

section Posting

variable {collection : Option String} {name key : String} {v : FieldValue}
  {s w lower upper : List UInt8}
  (encoded : ((QueueSourcePostingFamily.scalar collection name).posting s key).encode = .ok w)
  (sorted : SortOf v s)

theorem valuePrefix_eq_ok (bound : valuePrefix family l = .ok lower) :
    ∃ t, SortOf l t ∧ family.valuePrefix t = .ok lower := by
  obtain ⟨_, -, rest⟩ := bind_eq_ok.mp bound
  obtain ⟨t, keyed, final⟩ := bind_eq_ok.mp rest
  exact ⟨t, (writtenKey_eq_ok.mp keyed).1, final⟩

include encoded

theorem placed_value
    (bound : (QueueSourcePostingFamily.scalar collection name).valuePrefix t = .ok lower)
    (next : prefixSuccessor lower = some upper) : Placed w lower upper (compare s t) := by
  obtain ⟨below, above⟩ := beside_value bound next encoded
  exact ⟨below, by rw [← not_iff_not, ← ne_eq, above, not_ne_iff]⟩

include sorted

theorem placed_type
    (bound : (QueueSourcePostingFamily.scalar collection name).scalarTypePrefix kind = .ok lower)
    (next : prefixSuccessor lower = some upper) :
    Placed w lower upper (compare (typeTag v.fieldType) (typeTag kind)) := by
  obtain ⟨payload, rfl⟩ := sorted.tag
  obtain ⟨-, rfl⟩ := QueueSourcePostingFamily.scalarTypePrefix_eq_ok.mp bound
  obtain ⟨-, -, rfl⟩ := QueueSourceKey.encode_eq_ok.mp encoded
  have split : escaped (1 :: 1 :: typeTag v.fieldType :: payload) =
      escapedPrefix (scalarTypePrefix v.fieldType) ++ escaped payload := by
    simp [escaped, escapedPrefix, scalarTypePrefix]
  have parts := (Parts.refl (QueueSourcePostingFamily.scalar collection name).word).append
    (parts_scalarTypePrefix v.fieldType kind)
  rw [QueueSourcePostingFamily.posting_word, split, append_assoc, ← append_assoc]
  refine ⟨below_iff parts _, ?_⟩
  rw [← not_iff_not, ← ne_eq, above_iff parts next, not_ne_iff]
  rfl

omit encoded

/-- How a value stands to an optional bound of some type: the order of the values if it has that
type, and the order of the types if it has not. -/
structure Stands (v : FieldValue) (kind : FieldType) (bound : Option Bound) (o : Ordering) :
    Prop where
  open_ : v.fieldType = kind → bound = none → o = .eq
  closed : v.fieldType = kind → ∀ b, bound = some b → compareFields v b.value = some o
  other : v.fieldType ≠ kind → o = compare (typeTag v.fieldType) (typeTag kind)

omit sorted in
theorem stands_open (v : FieldValue) (kind : FieldType) :
    Stands v kind none (compare (typeTag v.fieldType) (typeTag kind)) where
  open_ own _ := by rw [own, compare_self]
  closed _ _ impossible := nomatch impossible
  other _ := rfl

theorem stands_closed {b : Bound} (other : SortOf b.value t) (valid : field v v.fieldType = .ok ())
    (typed : field b.value b.value.fieldType = .ok ()) :
    Stands v b.value.fieldType (some b) (compare s t) where
  open_ _ impossible := nomatch impossible
  closed own b' found := by
    cases found
    exact sorted.compare_same other (own ▸ valid) typed
  other differ := sorted.compare_other other differ

include encoded

variable {bound : Option Bound}

/-- A posting against the low bound of a range. -/
theorem lowBound_iff (low : lowBound (.scalar collection name) kind bound = .ok lower)
    (valid : field v v.fieldType = .ok ()) (typed : ∀ b, bound = some b →
      b.value.fieldType = kind ∧ field b.value b.value.fieldType = .ok ()) :
    ∃ o, Stands v kind bound o ∧ (compare lower w ≠ .gt ↔
      match bound with
      | some (.excluded _) => o = .gt
      | _ => o ≠ .lt) := by
  rcases bound with - | b
  · obtain ⟨upper, next⟩ :=
      exists_prefixSuccessor (QueueSourcePostingFamily.scalarTypePrefix_eq_ok.mp low).2
    exact ⟨_, stands_open v kind, (placed_type encoded sorted low next).from_lower⟩
  · obtain ⟨rfl, valid'⟩ := typed b rfl
    cases b with
    | included l =>
      obtain ⟨t, other, bytes⟩ := valuePrefix_eq_ok low
      obtain ⟨upper, next⟩ :=
        exists_prefixSuccessor (QueueSourcePostingFamily.valuePrefix_eq_ok.mp bytes).2
      exact ⟨_, stands_closed sorted other valid valid',
        (placed_value encoded bytes next).from_lower⟩
    | excluded l =>
      obtain ⟨bytes, found, next⟩ := bind_eq_ok.mp low
      obtain ⟨t, other, bytes⟩ := valuePrefix_eq_ok found
      exact ⟨_, stands_closed sorted other valid valid',
        (placed_value encoded bytes (successor_eq_ok.mp next)).from_upper⟩

/-- A posting against the high bound of a range. -/
theorem highBound_iff (high : highBound (.scalar collection name) kind bound = .ok upper)
    (valid : field v v.fieldType = .ok ()) (typed : ∀ b, bound = some b →
      b.value.fieldType = kind ∧ field b.value b.value.fieldType = .ok ()) :
    ∃ o, Stands v kind bound o ∧ (compare w upper = .lt ↔
      match bound with
      | some (.excluded _) => o = .lt
      | _ => o ≠ .gt) := by
  rcases bound with - | b
  · obtain ⟨bytes, found, next⟩ := bind_eq_ok.mp high
    exact ⟨_, stands_open v kind,
      (placed_type encoded sorted found (successor_eq_ok.mp next)).above⟩
  · obtain ⟨rfl, valid'⟩ := typed b rfl
    cases b with
    | included l =>
      obtain ⟨bytes, found, next⟩ := bind_eq_ok.mp high
      obtain ⟨t, other, bytes⟩ := valuePrefix_eq_ok found
      exact ⟨_, stands_closed sorted other valid valid',
        (placed_value encoded bytes (successor_eq_ok.mp next)).above⟩
    | excluded l =>
      obtain ⟨t, other, bytes⟩ := valuePrefix_eq_ok high
      obtain ⟨upper', next⟩ :=
        exists_prefixSuccessor (QueueSourcePostingFamily.valuePrefix_eq_ok.mp bytes).2
      exact ⟨_, stands_closed sorted other valid valid', (placed_value encoded bytes next).below⟩

/-- A posting lies between the bounds exactly when its value matches the range. -/
theorem within_bounds_iff {low high : Option Bound}
    (lows : lowBound (.scalar collection name) kind low = .ok lower)
    (highs : highBound (.scalar collection name) kind high = .ok upper)
    (valid : field v v.fieldType = .ok ()) (typed : ∀ b, low = some b ∨ high = some b →
      b.value.fieldType = kind ∧ field b.value b.value.fieldType = .ok ())
    (bounded : low.isSome = true ∨ high.isSome = true) :
    Within lower upper w ↔ (Predicate.range low high).matches_ (some v) = true := by
  obtain ⟨o, standsLow, fromLow⟩ := lowBound_iff encoded sorted lows valid
    fun b found => typed b (.inl found)
  obtain ⟨o', standsHigh, toHigh⟩ := highBound_iff encoded sorted highs valid
    fun b found => typed b (.inr found)
  rw [Within, fromLow, toHigh, Predicate.matches_, Bool.and_eq_true]
  by_cases own : v.fieldType = kind
  · refine and_congr ?_ ?_
    · rcases low with - | b
      · simp [standsLow.open_ own rfl]
      · have order := standsLow.closed own b rfl
        cases b <;> rw [Option.all_some, Bound.below] <;> cases o <;> simp_all [Bound.value]
    · rcases high with - | b
      · simp [standsHigh.open_ own rfl]
      · have order := standsHigh.closed own b rfl
        cases b <;> rw [Option.all_some, Bound.above] <;> cases o' <;> simp_all [Bound.value]
  · -- the types decide: the posting is below the low bound or above the high one
    obtain rfl : o = o' := (standsLow.other own).trans (standsHigh.other own).symm
    have apart : o ≠ .eq := by
      rw [standsLow.other own]
      exact fun same => own (typeTag_injective (LawfulEqOrd.eq_of_compare same))
    have foreign : ∀ b, low = some b ∨ high = some b → compareFields v b.value = none :=
      fun b found => compareFields_other ((typed b found).1 ▸ own)
    refine iff_of_false ?_ ?_
    · rintro ⟨above, below⟩
      cases o with
      | eq => exact apart rfl
      | lt => rcases low with - | (l | l) <;> simp at above
      | gt => rcases high with - | (h | h) <;> simp at below
    · rintro ⟨below, above⟩
      rcases bounded with some | some
      · obtain ⟨b, rfl⟩ := Option.isSome_iff_exists.mp some
        have none := foreign b (.inl rfl)
        cases b <;> simp_all [Bound.below, Bound.value]
      · obtain ⟨b, rfl⟩ := Option.isSome_iff_exists.mp some
        have none := foreign b (.inr rfl)
        cases b <;> simp_all [Bound.above, Bound.value]

omit sorted in
theorem equal_contains_iff (sorted : SortOf v s)
    (planned : equal (.scalar collection name) l = .ok range) (valid : field v v.fieldType = .ok ())
    (typed : field l l.fieldType = .ok ()) : range.Contains w ↔ compareFields v l = some .eq := by
  obtain ⟨lower, bound, rest⟩ := bind_eq_ok.mp planned
  obtain ⟨upper, next, final⟩ := bind_eq_ok.mp rest
  cases final
  obtain ⟨t, other, bytes⟩ := valuePrefix_eq_ok bound
  rw [sorted.equal_iff other valid typed]
  exact (placed_value encoded bytes (successor_eq_ok.mp next)).within

end Posting

/-! ## Lists of ranges -/

theorem dedupByLower_subset (ranges : List QueueSourceScalarRange) :
    dedupByLower ranges ⊆ ranges := by
  fun_induction dedupByLower ranges with
  | case1 a b rest same ih =>
    intro range member
    rcases mem_cons.mp (ih member) with rfl | later
    · exact mem_cons_self
    · exact mem_cons_of_mem _ (mem_cons_of_mem _ later)
  | case2 a b rest differ ih => exact cons_subset_cons a ih
  | case3 ranges => exact Subset.refl _

theorem exists_dedupByLower (ranges : List QueueSourceScalarRange) :
    ∀ range ∈ ranges, ∃ kept ∈ dedupByLower ranges, kept.lower = range.lower := by
  fun_induction dedupByLower ranges with
  | case1 a b rest same ih =>
    intro range member
    rcases mem_cons.mp member with rfl | later
    · exact ih range mem_cons_self
    · rcases mem_cons.mp later with rfl | later
      · rw [← same]
        exact ih a mem_cons_self
      · exact ih range (mem_cons_of_mem a later)
  | case2 a b rest differ ih =>
    intro range member
    rcases mem_cons.mp member with rfl | later
    · exact ⟨range, mem_cons_self, rfl⟩
    · obtain ⟨kept, inside, lower⟩ := ih range later
      exact ⟨kept, mem_cons_of_mem a inside, lower⟩
  | case3 ranges => exact fun range member => ⟨range, member, rfl⟩

variable {ranges : List QueueSourceScalarRange}

/-- Without its duplicates a sorted list is strictly ascending. -/
theorem dedupByLower_ascending
    (sorted : ranges.Pairwise fun a b => (compare a.lower b.lower).isLE = true) :
    (dedupByLower ranges).Pairwise fun a b => compare a.lower b.lower = .lt := by
  fun_induction dedupByLower ranges with
  | case1 a b rest same ih =>
    rw [pairwise_cons, pairwise_cons] at sorted
    obtain ⟨first, -, tail⟩ := sorted
    exact ih (.cons (fun r member => first r (mem_cons_of_mem b member)) tail)
  | case2 a b rest differ ih =>
    obtain ⟨first, tail⟩ := pairwise_cons.mp sorted
    have next : compare a.lower b.lower = .lt := by
      rcases Ordering.isLE_iff_eq_lt_or_eq_eq.mp (first b mem_cons_self) with less | equal
      · exact less
      · exact absurd (LawfulEqOrd.eq_of_compare equal) differ
    refine .cons ?_ (ih tail)
    intro r member
    rcases mem_cons.mp (dedupByLower_subset _ member) with rfl | later
    · exact next
    · exact TransCmp.lt_of_lt_of_isLE next ((pairwise_cons.mp tail).1 r later)
  | case3 ranges short =>
    rcases ranges with - | ⟨a, - | ⟨b, rest⟩⟩
    · exact .nil
    · exact pairwise_singleton _ _
    · exact (short a b rest rfl).elim

/-- The ranges share no key. -/
def Disjoint (ranges : List QueueSourceScalarRange) : Prop :=
  ranges.Pairwise fun a b => ∀ key, ¬(a.Contains key ∧ b.Contains key)

theorem equal_eq_ok (planned : equal family l = .ok range) :
    ∃ t, range.lower = family.word ++ escaped t ∧
      prefixSuccessor range.lower = some range.upper := by
  obtain ⟨lower, bound, rest⟩ := bind_eq_ok.mp planned
  obtain ⟨upper, next, final⟩ := bind_eq_ok.mp rest
  cases final
  obtain ⟨t, -, bytes⟩ := valuePrefix_eq_ok bound
  exact ⟨t, (QueueSourcePostingFamily.valuePrefix_eq_ok.mp bytes).2, successor_eq_ok.mp next⟩

theorem equal_lower {l' : FieldValue} {a b : QueueSourceScalarRange} {key : List UInt8}
    (first : equal family l = .ok a) (second : equal family l' = .ok b) (left : a.Contains key)
    (right : b.Contains key) : a.lower = b.lower := by
  obtain ⟨t, lower, next⟩ := equal_eq_ok first
  obtain ⟨t', lower', next'⟩ := equal_eq_ok second
  have initial := (within_iff_isPrefix next).mp left
  have initial' := (within_iff_isPrefix next').mp right
  rw [lower, lower'] at *
  rcases prefix_or_prefix_of_prefix initial initial' with shorter | shorter
  · exact (parts_value family t' t).eq_of_initial shorter
  · exact ((parts_value family t t').eq_of_initial shorter).symm

/-! ## Operands of predicates -/

def operands : Predicate → List FieldValue
  | .equal value => [value]
  | .in_ values => values
  | .range lower upper => (lower.toList ++ upper.toList).map Bound.value

section Admitted

variable {declaration : CollectionDefinition} {name : String}

theorem operands_valid (admitted : validateFieldPredicate declaration name predicate = .ok ()) :
    ∀ l ∈ operands predicate, field l l.fieldType = .ok () := by
  obtain ⟨_, -, rest⟩ := bind_eq_ok.mp admitted
  obtain ⟨-, checks⟩ := check_bind_eq_ok.mp rest
  cases predicate with
  | equal value =>
    intro l member
    rw [operands, mem_singleton] at member
    exact member ▸ (validateValue_field checks).1
  | in_ values =>
    obtain ⟨-, each⟩ := check_bind_eq_ok.mp checks
    exact fun l member => (validateValue_field ((forM_eq_ok _ _).mp each l member)).1
  | range lower upper =>
    obtain ⟨-, checks⟩ := check_bind_eq_ok.mp checks
    obtain ⟨_, each, -⟩ := bind_eq_ok.mp checks
    intro l member
    obtain ⟨bound, present, rfl⟩ := mem_map.mp member
    exact (validateValue_field ((forM_eq_ok _ _).mp each bound present)).1

theorem range_typed {lower upper : Option Bound}
    (admitted : validateFieldPredicate declaration name (.range lower upper) = .ok ()) :
    ∃ bound, lower.or upper = some bound ∧ ∀ b, lower = some b ∨ upper = some b →
      b.value.fieldType = bound.value.fieldType := by
  obtain ⟨_, -, rest⟩ := bind_eq_ok.mp admitted
  obtain ⟨-, checks⟩ := check_bind_eq_ok.mp rest
  obtain ⟨some, checks⟩ := check_bind_eq_ok.mp checks
  obtain ⟨_, -, ordered⟩ := bind_eq_ok.mp checks
  rcases lower with - | l <;> rcases upper with - | u
  · cases some
  · exact ⟨u, rfl, by rintro b (⟨⟨⟩⟩ | ⟨⟨⟩⟩); rfl⟩
  · exact ⟨l, rfl, by rintro b (⟨⟨⟩⟩ | ⟨⟨⟩⟩); rfl⟩
  · refine ⟨l, rfl, ?_⟩
    rintro b (⟨⟨⟩⟩ | ⟨⟨⟩⟩)
    · rfl
    · by_contra differ
      dsimp only at ordered
      rw [compareFields_other (Ne.symm differ)] at ordered
      cases ordered

end Admitted

/-! ## Room for the bounds -/

theorem checkedSize_eq_ok {n m : Nat} : checkedSize n = .ok m ↔ n < 2 ^ 64 ∧ m = n := by
  rw [checkedSize, check_bind_eq_ok, rejectIf_eq_ok]
  simp [eq_comm]

theorem length_escaped_le (word : List UInt8) : (escaped word).length ≤ 2 * word.length + 2 := by
  have zeros := length_filter_le (· == 0) word
  rw [IndexSink.length_escaped]
  omega

theorem SortOf.length_le (sorted : SortOf v s) : s.length ≤ 2 * (serialize v).length + 12 := by
  obtain ⟨words, encoded, final⟩ := bind_eq_ok.mp sorted
  rw [mapM_cons, mapM_nil] at encoded
  obtain ⟨word, single, rest⟩ := bind_eq_ok.mp encoded
  cases rest
  obtain ⟨bytes, scalars, final'⟩ := bind_eq_ok.mp single
  cases final'
  cases final
  have length : bytes.length ≤ 2 * (serialize v).length + 9 := by
    cases v with
    | integer n =>
      cases scalars
      simp [beBytes, leBytes_length]
    | float x =>
      rw [scalar] at scalars
      split at scalars
      · cases scalars
        simp [beBytes, leBytes_length]
      · cases scalars
    | boolean b =>
      cases scalars
      simp
    | text t =>
      cases scalars
      have bound := length_escaped_le t.toUTF8.data.toList
      simp [serialize, variant] at bound ⊢
      omega
    | bytes b =>
      cases scalars
      have bound := length_escaped_le b
      simp [serialize, variant] at bound ⊢
      omega
  simp
  omega

theorem length_operand_le (member : l ∈ operands predicate) :
    (serialize l).length ≤ (serialize predicate).length := by
  cases predicate with
  | equal value =>
    rw [operands, mem_singleton] at member
    simp [serialize, variant, member]
  | in_ values =>
    have inside := ((singleton_sublist.mpr member).flatMap serialize).length_le
    rw [flatMap_singleton] at inside
    simp only [serialize, variant, length_append] at inside ⊢
    exact Nat.le_add_left_of_le (Nat.le_add_left_of_le inside)
  | range lower upper =>
    obtain ⟨bound, present, rfl⟩ := mem_map.mp member
    have size : (serialize bound.value).length ≤ (serialize bound).length := by
      cases bound <;> simp [serialize, variant, Bound.value]
    have whole : (serialize bound).length ≤
        (serialize lower).length + (serialize upper).length := by
      rcases mem_append.mp present with found | found
      · rw [Option.mem_toList.mp found]
        simp [serialize]
        omega
      · rw [Option.mem_toList.mp found]
        simp [serialize]
        omega
    have total : (serialize (Predicate.range lower upper)).length =
        (varint 2).length + ((serialize lower).length + (serialize upper).length) := by
      rw [← length_append, ← length_append]
      rfl
    omega

theorem prefixLen_eq_ok {n : Nat} :
    family.prefixLen = .ok n ↔ family.word.length < 2 ^ 64 ∧ n = family.word.length := by
  have writes : IndexSink.Writes (family.write none) family.word := by
    have shape : family.word = [version, family.tag] ++
        (collectionWord family.collection ++ (escaped (asBytes family.name) ++ [])) := by
      rw [append_nil]
      rfl
    rw [shape]
    exact (IndexSink.writes_raw [version, family.tag]).seq
      ((writes_collection family.collection).seq
        (writes_done (writes_literal (asBytes family.name))))
  exact measured_eq writes

theorem scalarPlanCapacity_fits {capacity : Nat}
    (planned : scalarPlanCapacity family predicate = .ok capacity)
    (some : rangeCount predicate ≠ 0) :
    family.word.length + 4 * (serialize predicate).length + 26 < 2 ^ 64 := by
  obtain ⟨n, scaled, rest⟩ := bind_eq_ok.mp planned
  obtain ⟨pre, measures, rest⟩ := bind_eq_ok.mp rest
  obtain ⟨twice, doubled, rest⟩ := bind_eq_ok.mp rest
  obtain ⟨per, padded, rest⟩ := bind_eq_ok.mp rest
  obtain ⟨extra, multiplied, rest⟩ := bind_eq_ok.mp rest
  obtain ⟨sum, added, final⟩ := bind_eq_ok.mp rest
  obtain ⟨-, rfl⟩ := checkedSize_eq_ok.mp scaled
  obtain ⟨-, rfl⟩ := checkedSize_eq_ok.mp doubled
  obtain ⟨-, rfl⟩ := checkedSize_eq_ok.mp padded
  obtain ⟨-, rfl⟩ := checkedSize_eq_ok.mp multiplied
  obtain ⟨-, rfl⟩ := checkedSize_eq_ok.mp added
  obtain ⟨fits, -⟩ := checkedSize_eq_ok.mp final
  have length : pre = family.word.length := by
    cases measured : family.prefixLen with
    | error e =>
      rw [measured] at measures
      cases measures
    | ok m =>
      rw [measured] at measures
      cases measures
      exact (prefixLen_eq_ok.mp measured).2
  subst length
  have once := Nat.le_mul_of_pos_right (family.word.length * 2 + 512) (Nat.pos_of_ne_zero some)
  omega

section Total

variable {family : QueueSourcePostingFamily}

theorem successor_total {bytes rest : List UInt8} (starts : bytes = version :: rest) :
    ∃ upper, successor bytes = .ok upper := by
  obtain ⟨upper, next⟩ := exists_prefixSuccessor starts
  exact ⟨upper, successor_eq_ok.mpr next⟩

section

variable {l : FieldValue} (valid : field l l.fieldType = .ok ())
  (fits : family.word.length + 4 * (serialize l).length + 26 < 2 ^ 64)

include valid fits

theorem valuePrefix_total :
    ∃ lower upper, valuePrefix family l = .ok lower ∧ successor lower = .ok upper := by
  obtain ⟨t, sorted⟩ := exists_sortOf valid
  have length := sorted.length_le
  have length' := length_escaped_le t
  have bytes : family.valuePrefix t = .ok (family.word ++ escaped t) := by
    refine QueueSourcePostingFamily.valuePrefix_eq_ok.mpr ⟨?_, rfl⟩
    rw [length_append]
    omega
  have room : t.length < 2 ^ 64 := by omega
  obtain ⟨upper, next⟩ := successor_total (rfl : family.word ++ escaped t = version :: _)
  refine ⟨_, upper, ?_, next⟩
  rw [valuePrefix, writeValues_eq_ok.mpr ⟨t, sorted, room, rfl⟩, ok_bind,
    writtenKey_eq_ok.mpr ⟨sorted, room⟩, ok_bind, bytes]

theorem equal_total : ∃ range, equal family l = .ok range := by
  obtain ⟨lower, upper, bytes, next⟩ := valuePrefix_total valid fits
  exact ⟨_, by rw [equal, bytes, ok_bind, next, ok_bind]⟩

end

theorem typePrefix_total (collection : Option String) (name : String) (kind : FieldType)
    (fits : (QueueSourcePostingFamily.scalar collection name).word.length + 26 < 2 ^ 64) :
    ∃ lower upper, (QueueSourcePostingFamily.scalar collection name).scalarTypePrefix kind =
      .ok lower ∧ successor lower = .ok upper := by
  have short : (escapedPrefix (scalarTypePrefix kind)).length ≤ 4 := by cases kind <;> decide
  have bytes := QueueSourcePostingFamily.scalarTypePrefix_eq_ok.mpr
    ⟨by rw [length_append]; omega, Eq.refl ((QueueSourcePostingFamily.scalar collection
      name).word ++ escapedPrefix (scalarTypePrefix kind))⟩
  obtain ⟨upper, next⟩ := successor_total (rfl : (QueueSourcePostingFamily.scalar collection
    name).word ++ escapedPrefix (scalarTypePrefix kind) = version :: _)
  exact ⟨_, upper, bytes, next⟩

end Total

variable {key : String}

section Plan

variable {collection : Option String} {name : String} {declaration : CollectionDefinition}
  {predicate : Predicate}

theorem rangesOf_total (admitted : validateFieldPredicate declaration name predicate = .ok ())
    (fits : (QueueSourcePostingFamily.scalar collection name).word.length +
      4 * (serialize predicate).length + 26 < 2 ^ 64) :
    ∃ ranges, rangesOf (.scalar collection name) predicate = .ok ranges := by
  have valid := operands_valid admitted
  have room : ∀ l ∈ operands predicate, (QueueSourcePostingFamily.scalar collection
      name).word.length + 4 * (serialize l).length + 26 < 2 ^ 64 := by
    intro l member
    have size := length_operand_le member
    omega
  cases predicate with
  | equal value =>
    obtain ⟨range, planned⟩ := equal_total (valid value (mem_singleton_self value))
      (room value (mem_singleton_self value))
    exact ⟨[range], by rw [rangesOf, planned, ok_bind]⟩
  | in_ values =>
    have each : ∀ l ∈ values, ∃ range, equal (.scalar collection name) l = .ok range :=
      fun l member => equal_total (valid l member) (room l member)
    obtain ⟨ranges, planned⟩ := mapM_total each
    exact ⟨_, by rw [rangesOf, planned, ok_bind]⟩
  | range lower upper =>
    obtain ⟨bound, first, -⟩ := range_typed admitted
    have sides : ∀ b, lower = some b ∨ upper = some b → ∃ low high,
        valuePrefix (.scalar collection name) b.value = .ok low ∧ successor low = .ok high := by
      intro b found
      have member : b.value ∈ operands (.range lower upper) := by
        refine mem_map_of_mem (mem_append.mpr ?_)
        simpa [eq_comm] using found
      exact valuePrefix_total (valid _ member) (room _ member)
    obtain ⟨low, high, typed, next⟩ := typePrefix_total collection name bound.value.fieldType
      (by omega)
    have lows : ∃ low, lowBound (.scalar collection name) bound.value.fieldType lower =
        .ok low := by
      rcases lower with - | (l | l)
      · exact ⟨low, typed⟩
      · obtain ⟨low, -, bytes, -⟩ := sides _ (.inl rfl)
        exact ⟨low, bytes⟩
      · obtain ⟨low, high, bytes, next⟩ := sides _ (.inl rfl)
        exact ⟨high, bind_eq_ok.mpr ⟨low, bytes, next⟩⟩
    have highs : ∃ high, highBound (.scalar collection name) bound.value.fieldType upper =
        .ok high := by
      rcases upper with - | (l | l)
      · exact ⟨high, bind_eq_ok.mpr ⟨low, typed, next⟩⟩
      · obtain ⟨low, high, bytes, next⟩ := sides _ (.inr rfl)
        exact ⟨high, bind_eq_ok.mpr ⟨low, bytes, next⟩⟩
      · obtain ⟨low, -, bytes, -⟩ := sides _ (.inr rfl)
        exact ⟨low, bytes⟩
    obtain ⟨low, lows⟩ := lows
    obtain ⟨high, highs⟩ := highs
    rw [rangesOf, first]
    dsimp only
    exact ⟨_, by rw [lows, ok_bind, highs, ok_bind]⟩

theorem rangesOf_in {values : List FieldValue}
    (planned : rangesOf family (.in_ values) = .ok ranges) :
    (∀ range ∈ ranges, ∃ l ∈ values, equal family l = .ok range) ∧
      (∀ l ∈ values, ∃ range ∈ ranges, ∃ same, equal family l = .ok same ∧
        range.lower = same.lower) ∧
      ranges.Pairwise fun a b => compare a.lower b.lower = .lt := by
  obtain ⟨all, each, final⟩ := bind_eq_ok.mp planned
  cases final
  have related := (mapM_eq_ok _ _ _).mp each
  have sorted : (all.mergeSort fun a b => (compare a.lower b.lower).isLE).Pairwise
      fun a b => (compare a.lower b.lower).isLE = true := by
    refine pairwise_mergeSort ?_ ?_ all
    · intro a b c first second
      exact TransOrd.isLE_trans first second
    · intro a b
      rw [OrientedOrd.eq_swap (a := b.lower) (b := a.lower)]
      cases compare a.lower b.lower <;> decide
  refine ⟨?_, ?_, dedupByLower_ascending sorted⟩
  · intro range member
    exact forall₂_mem_right related (mem_mergeSort.mp (dedupByLower_subset _ member))
  · intro l member
    obtain ⟨same, present, planned⟩ := forall₂_mem_left related member
    obtain ⟨range, kept, lower⟩ := exists_dedupByLower _ same (mem_mergeSort.mpr present)
    exact ⟨range, kept, same, planned, lower⟩

/-- The ranges of an admitted predicate hold the postings of the values that match. -/
theorem rangesOf_exact {w : List UInt8}
    (planned : rangesOf (.scalar collection name) predicate = .ok ranges)
    (admitted : validateFieldPredicate declaration name predicate = .ok ())
    (encoded : ((QueueSourcePostingFamily.scalar collection name).posting s key).encode = .ok w)
    (sorted : SortOf v s) (valid : field v v.fieldType = .ok ()) :
    (∃ range ∈ ranges, range.Contains w) ↔ predicate.matches_ (some v) = true := by
  have typed := operands_valid admitted
  cases predicate with
  | equal value =>
    obtain ⟨range, single, final⟩ := bind_eq_ok.mp planned
    cases final
    have single := equal_contains_iff encoded sorted single valid
      (typed value (mem_singleton_self value))
    simpa [Predicate.matches_] using single
  | in_ values =>
    obtain ⟨sound, complete, -⟩ := rangesOf_in planned
    rw [Predicate.matches_, any_eq_true]
    constructor
    · rintro ⟨range, member, inside⟩
      obtain ⟨l, present, single⟩ := sound range member
      refine ⟨l, present, ?_⟩
      simpa using (equal_contains_iff encoded sorted single valid (typed l present)).mp inside
    · rintro ⟨l, present, matched⟩
      obtain ⟨range, member, same, single, lower⟩ := complete l present
      refine ⟨range, member, ?_⟩
      obtain ⟨l', -, single'⟩ := sound range member
      obtain ⟨-, -, next⟩ := equal_eq_ok single
      obtain ⟨-, -, next'⟩ := equal_eq_ok single'
      have upper : range.upper = same.upper := by
        rw [lower, next] at next'
        exact (Option.some.inj next').symm
      have inside : same.Contains w :=
        (equal_contains_iff encoded sorted single valid (typed l present)).mpr
          (by simpa using matched)
      rwa [QueueSourceScalarRange.Contains, lower, upper]
  | range lower upper =>
    obtain ⟨bound, first, kinds⟩ := range_typed admitted
    rw [rangesOf, first] at planned
    obtain ⟨low, lows, rest⟩ := bind_eq_ok.mp planned
    obtain ⟨high, highs, final⟩ := bind_eq_ok.mp rest
    cases final
    have operand : ∀ b, lower = some b ∨ upper = some b →
        b.value.fieldType = bound.value.fieldType ∧ field b.value b.value.fieldType = .ok () := by
      intro b found
      refine ⟨kinds b found, typed _ (mem_map_of_mem (mem_append.mpr ?_))⟩
      simpa [eq_comm] using found
    have bounded : lower.isSome = true ∨ upper.isSome = true := by
      cases lower with
      | some l => exact .inl rfl
      | none => exact .inr (Option.isSome_iff_exists.mpr ⟨bound, first⟩)
    rw [← within_bounds_iff encoded sorted lows highs valid operand bounded]
    split_ifs with proper
    · simp only [mem_singleton, exists_eq_left]
      rfl
    · refine iff_of_false (by simp) ?_
      rintro ⟨above, below⟩
      have above' : (compare low w).isLE = true := by
        cases order : compare low w <;> simp_all
      exact proper (TransCmp.lt_of_isLE_of_lt above' below)

theorem rangesOf_disjoint (planned : rangesOf family predicate = .ok ranges) :
    Disjoint ranges ∧ ∀ range ∈ ranges, ∃ key, range.Contains key := by
  have inhabited : ∀ {l range}, equal family l = .ok range → range.Contains range.lower := by
    intro l range single
    obtain ⟨-, -, next⟩ := equal_eq_ok single
    exact (within_iff_isPrefix next).mpr (prefix_refl _)
  cases predicate with
  | equal value =>
    obtain ⟨range, single, final⟩ := bind_eq_ok.mp planned
    cases final
    refine ⟨pairwise_singleton _ _, ?_⟩
    intro range member
    rw [mem_singleton] at member
    exact member ▸ ⟨_, inhabited single⟩
  | in_ values =>
    obtain ⟨sound, -, ascending⟩ := rangesOf_in planned
    constructor
    · refine ascending.imp_of_mem ?_
      rintro a b member member' less key ⟨left, right⟩
      obtain ⟨l, -, single⟩ := sound a member
      obtain ⟨l', -, single'⟩ := sound b member'
      rw [equal_lower single single' left right, compare_self] at less
      cases less
    · intro range member
      obtain ⟨l, -, single⟩ := sound range member
      exact ⟨_, inhabited single⟩
  | range lower upper =>
    rw [rangesOf] at planned
    cases first : lower.or upper with
    | none =>
      rw [first] at planned
      cases planned
    | some bound =>
      rw [first] at planned
      obtain ⟨low, lows, rest⟩ := bind_eq_ok.mp planned
      obtain ⟨high, highs, final⟩ := bind_eq_ok.mp rest
      cases final
      split_ifs with proper
      · refine ⟨pairwise_singleton _ _, ?_⟩
        intro range member
        rw [mem_singleton] at member
        refine ⟨low, ?_⟩
        rw [member]
        exact ⟨by simp [compare_self], proper⟩
      · exact ⟨.nil, by simp⟩

end Plan

/-! ## Presence -/

section Presence

variable {collection : Option String} {name : String} {declaration : CollectionDefinition}

theorem presenceRanges_total (kinds : List FieldType)
    (fits : (QueueSourcePostingFamily.scalar collection name).word.length + 26 < 2 ^ 64) :
    ∃ ranges, kinds.mapM (typeRange (.scalar collection name)) = .ok ranges := by
  refine mapM_total fun kind _ => ?_
  obtain ⟨lower, upper, typed, next⟩ := typePrefix_total collection name kind fits
  exact ⟨_, by rw [typeRange, typed, ok_bind, next, ok_bind]⟩

theorem typeRange_contains_iff {w : List UInt8}
    (planned : typeRange (.scalar collection name) kind = .ok range)
    (encoded : ((QueueSourcePostingFamily.scalar collection name).posting s key).encode = .ok w)
    (sorted : SortOf v s) : range.Contains w ↔ kind = v.fieldType := by
  obtain ⟨lower, typed, rest⟩ := bind_eq_ok.mp planned
  obtain ⟨upper, next, final⟩ := bind_eq_ok.mp rest
  cases final
  rw [QueueSourceScalarRange.Contains,
    (placed_type encoded sorted typed (successor_eq_ok.mp next)).within]
  constructor
  · intro same
    exact (typeTag_injective (LawfulEqOrd.eq_of_compare same)).symm
  · rintro rfl
    exact compare_self

theorem count_fieldTypes (admitted : declaration.validateValue name v = .ok ()) :
    (fieldTypes.filter fun kind => !otherwiseDeclared declaration name kind).count v.fieldType =
      1 := by
  refine count_eq_one_of_mem (Nodup.filter _ (by decide)) ?_
  rw [mem_filter]
  refine ⟨by cases v.fieldType <;> decide, ?_⟩
  rw [otherwiseDeclared]
  cases declared : declaration.fields[name]? with
  | none => rfl
  | some expected => simp [(validateValue_field admitted).2 expected declared]

theorem presenceRanges_exact {kinds : List FieldType} {w : List UInt8}
    (planned : kinds.mapM (typeRange (.scalar collection name)) = .ok ranges)
    (encoded : ((QueueSourcePostingFamily.scalar collection name).posting s key).encode = .ok w)
    (sorted : SortOf v s) :
    ranges.countP (fun range => range.Contains w) = kinds.count v.fieldType := by
  have related := (mapM_eq_ok _ _ _).mp planned
  clear planned
  induction related with
  | nil => rfl
  | @cons kind range kinds ranges here _ ih =>
    have inside := typeRange_contains_iff here encoded sorted
    rw [countP_cons, count_cons, ih]
    simp only [inside, decide_eq_true_eq, beq_iff_eq]

end Presence

variable {declaration : CollectionDefinition}

theorem rangeCount_ne_zero {name : String}
    (admitted : validateFieldPredicate declaration name predicate = .ok ()) :
    rangeCount predicate ≠ 0 := by
  cases predicate with
  | equal value => exact Nat.one_ne_zero
  | range lower upper => exact Nat.one_ne_zero
  | in_ values =>
    obtain ⟨_, -, rest⟩ := bind_eq_ok.mp admitted
    obtain ⟨-, checks⟩ := check_bind_eq_ok.mp rest
    obtain ⟨some, -⟩ := check_bind_eq_ok.mp checks
    intro none
    rw [rejectIf_eq_ok, isEmpty_eq_false_iff] at some
    exact some (length_eq_zero_iff.mp none)

theorem presencePlanCapacity_fits {capacity : Nat}
    (planned : presencePlanCapacity family = .ok capacity) : family.word.length + 26 < 2 ^ 64 := by
  obtain ⟨pre, measures, rest⟩ := bind_eq_ok.mp planned
  obtain ⟨padded, added, rest⟩ := bind_eq_ok.mp rest
  obtain ⟨-, rfl⟩ := prefixLen_eq_ok.mp measures
  obtain ⟨fits, -⟩ := checkedSize_eq_ok.mp added
  omega

theorem declarationOf_missing {schema : QueueSchema} {collection : Option String} {missing : String}
    (declared : declarationOf schema missing collection = .ok declaration) (missing' : String) :
    declarationOf schema missing' collection = .ok declaration := by
  cases collection with
  | none => exact declared
  | some name =>
    rw [declarationOf] at declared ⊢
    cases found : schema.state[name]? with
    | none =>
      rw [found] at declared
      cases declared
    | some other =>
      rw [found] at declared
      exact declared

/-- Scalar ranges are exact: the posting of a value lies in the ranges of a predicate exactly when
the value matches, the ranges are disjoint and none is empty, and the presence ranges hold the
posting of every value once. -/
theorem scalar_ranges_exact {schema : QueueSchema} {collection : Option String}
    {declaration : CollectionDefinition}
    (declared : declarationOf schema "collection differs" collection = .ok declaration)
    (name : String) :
    (∀ predicate capacity free,
      validateFieldPredicate declaration name predicate = .ok () →
      scalarPlanCapacity (.scalar collection name) predicate = .ok capacity → capacity ≤ free →
      ∃ ranges, planSourceScalarRanges schema free collection name predicate = .ok ranges ∧
        (∀ v s key w, declaration.validateValue name v = .ok () → orderedKey [some v] = .ok s →
          (QueueSourceKey.scalarPosting collection name s key).encode = .ok w →
          ((∃ range ∈ ranges, range.Contains w) ↔ predicate.matches_ (some v) = true)) ∧
        Disjoint ranges ∧ ∀ range ∈ ranges, ∃ key, range.Contains key) ∧
    ∀ capacity free, declaration.admitsField name = true →
      presencePlanCapacity (.scalar collection name) = .ok capacity → capacity ≤ free →
      ∃ ranges, planSourcePresenceRanges schema free collection name = .ok ranges ∧
        ∀ v s key w, declaration.validateValue name v = .ok () → orderedKey [some v] = .ok s →
          (QueueSourceKey.scalarPosting collection name s key).encode = .ok w →
          ranges.countP (fun range => range.Contains w) = 1 := by
  have charged : ∀ {capacity free : Nat}, capacity ≤ free → ownedBuffer free capacity = .ok () := by
    intro capacity free enough
    rw [ownedBuffer, rejectIf_eq_ok]
    simpa using enough
  refine ⟨?_, ?_⟩
  · intro predicate capacity free admitted measured enough
    have fits := scalarPlanCapacity_fits measured (rangeCount_ne_zero admitted)
    obtain ⟨ranges, planned⟩ := rangesOf_total admitted fits
    refine ⟨ranges, ?_, ?_, rangesOf_disjoint planned⟩
    · rw [planSourceScalarRanges, declared, ok_bind, admitted, ok_bind]
      dsimp only
      rw [measured, ok_bind, charged enough, ok_bind, planned]
    · intro v s key w valid sorted encoded
      exact rangesOf_exact planned admitted encoded sorted (validateValue_field valid).1
  · intro capacity free admits measured enough
    obtain ⟨ranges, planned⟩ := presenceRanges_total
      (fieldTypes.filter fun kind => !otherwiseDeclared declaration name kind)
      (presencePlanCapacity_fits measured)
    refine ⟨ranges, ?_, ?_⟩
    · rw [planSourcePresenceRanges, declarationOf_missing declared, ok_bind, admits]
      dsimp only
      rw [measured, ok_bind, charged enough, ok_bind, planned]
      rfl
    · intro v s key w valid sorted encoded
      rw [presenceRanges_exact planned encoded sorted, count_fieldTypes valid]

/-- Work with one declared number and free fields under "bag/". -/
def numbered : QueueSchema where
  work :=
    { fields := .ofList [("n", FieldType.integer)]
      indexes := ∅
      uniqueIndexes := ∅
      additionalFieldPrefixes := .ofList ["bag/"] }
  state := ∅
  progressBoundNanos := 1
  maxAttempts := 1

/-- The posting of a text lies in no range of numbers, but in the presence ranges. -/
theorem scalar_ranges_exact_mixed : ∃ ranges present w,
    planSourceScalarRanges numbered 8192 none "bag/v"
      (.range (some (.excluded (.integer 1))) none) = .ok ranges ∧
    planSourcePresenceRanges numbered 8192 none "bag/v" = .ok present ∧
    (QueueSourceKey.scalarPosting none "bag/v" [1, 1, 3, 120, 0, 0] "a").encode = .ok w ∧
    (¬∃ range ∈ ranges, range.Contains w) ∧
    present.countP (fun range => range.Contains w) = 1 := by
  have declared : declarationOf numbered "collection differs" none = .ok numbered.work := rfl
  obtain ⟨predicates, presence⟩ := scalar_ranges_exact declared "bag/v"
  obtain ⟨ranges, planned, exact_, -⟩ := predicates
    (.range (some (.excluded (.integer 1))) none) 4820 8192
    (by decide +kernel) (by decide +kernel) (by decide)
  obtain ⟨present, planned', once⟩ := presence 4516 8192
    (by decide +kernel) (by decide +kernel) (by decide)
  have encoded : (QueueSourceKey.scalarPosting none "bag/v" [1, 1, 3, 120, 0, 0] "a").encode =
      .ok [1, 4, 0, 98, 97, 103, 47, 118, 0, 0, 1, 1, 3, 120, 0, 255, 0, 255, 0, 0, 97, 0, 0] := by
    decide +kernel
  have admitted : numbered.work.validateValue "bag/v" (.text "x") = .ok () := by decide +kernel
  have sorted : orderedKey [some (.text "x")] = .ok [1, 1, 3, 120, 0, 0] := by decide +kernel
  refine ⟨ranges, present, _, planned, planned', encoded, ?_, ?_⟩
  · rw [exact_ _ _ _ _ admitted sorted encoded]
    decide +kernel
  · exact once _ _ _ _ admitted sorted encoded

end QueueSourceIndex
