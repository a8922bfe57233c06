import Fireweed.Projection.Items
import Fireweed.BlockSort

/-!
# The eligibility index

Claimable items are kept in claim order: priced items first by the bytes of their
priority, then unpriced ones, oldest first. A queue that uses no priority, no
schedule and no group keeps only sequence and id; the first item that needs more
turns the index into its rich form. `Tracks` says that the index holds the key of
every eligible record and nothing else.
-/

namespace Projection

open BTree BlockSort Domain Std

instance ordWords : Ord (UInt64 × UInt64) := lexOrd

instance transOrdWords : TransOrd (UInt64 × UInt64) := inferInstanceAs (@TransOrd _ lexOrd)

instance lawfulEqOrdWords : LawfulEqOrd (UInt64 × UInt64) :=
  inferInstanceAs (@LawfulEqOrd _ lexOrd)

inductive EligRank where
  | priced (bytes : Bytes)
  | unpriced
deriving DecidableEq

structure EligKey where
  rank : EligRank
  createdSeq : UInt64
  item : ItemId
  notBefore : Option UtcTimestamp
  groupKey : Option GroupKey
deriving DecidableEq

section Order

attribute [local instance] lexOrd

/-- Priced before unpriced, then the priority bytes. -/
def EligRank.sortKey : EligRank → Bool × Bytes
  | .priced bytes => (false, bytes)
  | .unpriced => (true, [])

theorem EligRank.sortKey_injective : Function.Injective EligRank.sortKey := by
  rintro (_ | _) (_ | _) same <;> simp_all [EligRank.sortKey]

def EligKey.sortKey (key : EligKey) :
    (Bool × Bytes) × UInt64 × ItemId × Option UtcTimestamp × Option GroupKey :=
  (key.rank.sortKey, key.createdSeq, key.item, key.notBefore, key.groupKey)

theorem EligKey.sortKey_injective : Function.Injective EligKey.sortKey := by
  rintro ⟨rank, seq, item, notBefore, group⟩ ⟨rank', seq', item', notBefore', group'⟩ same
  simp only [EligKey.sortKey, Prod.mk.injEq] at same
  obtain ⟨ranks, rfl, rfl, rfl, rfl⟩ := same
  rw [EligRank.sortKey_injective ranks]

instance : Ord EligKey := ⟨compareOn EligKey.sortKey⟩

instance : TransOrd EligKey := inferInstanceAs (TransCmp (compareOn EligKey.sortKey))

instance : LawfulEqOrd EligKey := lawful_compareOn EligKey.sortKey_injective

/-- Items of one group cluster together, ungrouped items come last. -/
def localityKey (key : EligKey) : Bool × Option GroupKey := (key.groupKey.isNone, key.groupKey)

def localityLe (a b : EligKey) : Bool := (compare (localityKey a) (localityKey b)).isLE

theorem localityLe_trans (a b c : EligKey) (first : localityLe a b = true)
    (second : localityLe b c = true) : localityLe a c = true :=
  TransOrd.isLE_trans first second

theorem localityLe_total (a b : EligKey) : (localityLe a b || localityLe b a) = true := by
  have swap : compare (localityKey b) (localityKey a) =
      (compare (localityKey a) (localityKey b)).swap := OrientedOrd.eq_swap
  rw [localityLe, localityLe, swap]
  cases compare (localityKey a) (localityKey b) <;> rfl

theorem localityLe_of_group {a b : EligKey} (same : a.groupKey = b.groupKey) :
    localityLe a b = true := by
  rw [localityLe, localityKey, localityKey, same, ReflOrd.compare_self]
  rfl

end Order

variable {Priority Value Typed : Type}

def dueAt (key : EligKey) (now : UtcTimestamp) : Bool :=
  match key.notBefore with
  | some notBefore => decide (notBefore ≤ now)
  | none => true

inductive EligToken where
  | compact (createdSeq : UInt64) (item : ItemId)
  | rich (key : EligKey)
deriving DecidableEq

/-- The key of an item without priority, schedule and group. -/
def plainKey (createdSeq : UInt64) (item : ItemId) : EligKey :=
  ⟨.unpriced, createdSeq, item, none, none⟩

def EligToken.toKey : EligToken → EligKey
  | compact createdSeq item => plainKey createdSeq item
  | rich key => key

def eligKey (sort : Priority → Bytes) (record : ItemRecord Priority Value Typed) : EligKey where
  rank := match record.priority with
    | some priority => .priced (sort priority)
    | none => .unpriced
  createdSeq := record.createdSeq
  item := record.itemId
  notBefore := record.notBefore
  groupKey := record.groupKey

inductive EligibilityIndex where
  | compact (set : BTreeSet (UInt64 × ItemId))
  | rich (set : BTreeSet EligKey)

namespace EligibilityIndex

def new : EligibilityIndex := .compact ∅

def canCompact (record : ItemRecord Priority Value Typed) : Bool :=
  record.priority.isNone && record.notBefore.isNone && record.groupKey.isNone

variable (sort : Priority → Bytes)

def token (record : ItemRecord Priority Value Typed) : EligToken :=
  if canCompact record then .compact record.createdSeq record.itemId
  else .rich (eligKey sort record)

/-- The rich form of a compact index, read off the resident records. -/
def promote (items : BTreeMap ItemId (ItemRecord Priority Value Typed)) :
    EligibilityIndex → BTreeSet EligKey
  | rich set => set
  | compact set =>
    set.toList.foldl (fun keys entry =>
      match items[entry.2]? with
      | some record => keys.insert (eligKey sort record)
      | none => keys) ∅

def insert (index : EligibilityIndex) (record : ItemRecord Priority Value Typed)
    (items : BTreeMap ItemId (ItemRecord Priority Value Typed)) : EligibilityIndex :=
  match index with
  | compact set =>
    if canCompact record then .compact (set.insert (record.createdSeq, record.itemId))
    else .rich ((promote sort items index).insert (eligKey sort record))
  | rich set => .rich (set.insert (eligKey sort record))

def remove (index : EligibilityIndex) (token : EligToken) : EligibilityIndex :=
  match index with
  | compact set => .compact (set.erase (token.toKey.createdSeq, token.toKey.item))
  | rich set => .rich (set.erase token.toKey)

def strictCandidates (index : EligibilityIndex) (now : UtcTimestamp) (max : Nat) : List ItemId :=
  match index with
  | compact set => (set.toList.take max).map Prod.snd
  | rich set => ((set.toList.filter (dueAt · now)).take max).map EligKey.item

def relaxedCandidates (index : EligibilityIndex) (now : UtcTimestamp) (max : Nat)
    (bound : UInt32) : List ItemId :=
  match index with
  | compact set => (set.toList.take max).map Prod.snd
  | rich set =>
    let selected := (set.toList.filter (dueAt · now)).take max
    (sortBlocks localityLe (bound.toNat + 1) selected).map EligKey.item

/-! ## The keys of an index -/

/-- The keys of an index in claim order, in either form. -/
def keys : EligibilityIndex → List EligKey
  | compact set => set.toList.map fun entry => plainKey entry.1 entry.2
  | rich set => set.toList

variable {key : EligKey} {record : ItemRecord Priority Value Typed} {index : EligibilityIndex}

theorem mem_keys_compact {set : BTreeSet (UInt64 × ItemId)} :
    key ∈ (compact set).keys ↔
      (key.createdSeq, key.item) ∈ set ∧ key = plainKey key.createdSeq key.item := by
  simp only [keys, List.mem_map, ExtTreeSet.mem_toList]
  constructor
  · rintro ⟨entry, member, rfl⟩
    exact ⟨member, rfl⟩
  · rintro ⟨member, plain⟩
    exact ⟨_, member, plain.symm⟩

theorem mem_keys_rich {set : BTreeSet EligKey} :
    key ∈ (rich set).keys ↔ key ∈ set := ExtTreeSet.mem_toList

section

attribute [local instance] lexOrd

/-- Plain keys are ordered by sequence and id. -/
theorem compare_plainKey (a b : UInt64 × ItemId) :
    compare (plainKey a.1 a.2) (plainKey b.1 b.2) = compare a b := by
  have rest : ∀ o : Ordering, o.then (compare (none : Option UtcTimestamp) none |>.then
      (compare (none : Option GroupKey) none)) = o := by
    intro o
    cases o <;> rfl
  change (compare (true, ([] : Bytes)) (true, ([] : Bytes))).then ((compare a.1 b.1).then
    ((compare a.2 b.2).then _)) = (compare a.1 b.1).then (compare a.2 b.2)
  rw [ReflOrd.compare_self]
  exact congrArg (compare a.1 b.1).then (rest (compare a.2 b.2))

end

theorem keys_ordered (index : EligibilityIndex) :
    index.keys.Pairwise fun a b => compare a b = .lt := by
  cases index with
  | compact set =>
    rw [keys, List.pairwise_map]
    exact ExtTreeSet.ordered_toList.imp fun less => (compare_plainKey _ _).trans less
  | rich set => exact ExtTreeSet.ordered_toList

theorem strictCandidates_eq (index : EligibilityIndex) (now : UtcTimestamp) (max : Nat) :
    index.strictCandidates now max =
      ((index.keys.filter (dueAt · now)).take max).map EligKey.item := by
  cases index with
  | compact set =>
    have all : (compact set).keys.filter (dueAt · now) = (compact set).keys := by
      rw [List.filter_eq_self]
      intro key member
      rw [(mem_keys_compact.mp member).2]
      rfl
    rw [all, keys, strictCandidates, ← List.map_take, List.map_map]
    rfl
  | rich set => rfl

/-- The plain keys all have one locality, so sorting them by locality changes nothing. -/
theorem relaxedCandidates_eq (index : EligibilityIndex) (now : UtcTimestamp) (max : Nat)
    (bound : UInt32) :
    index.relaxedCandidates now max bound =
      (sortBlocks localityLe (bound.toNat + 1)
        ((index.keys.filter (dueAt · now)).take max)).map EligKey.item := by
  cases index with
  | compact set =>
    have level : ((compact set).keys.filter (dueAt · now) |>.take max).Pairwise
        fun a b => localityLe a b = true := by
      refine List.pairwise_of_forall_mem_list fun a left b right => ?_
      have plain : ∀ key ∈ ((compact set).keys.filter (dueAt · now)).take max,
          localityKey key = (true, none) := by
        intro key member
        rw [(mem_keys_compact.mp (List.mem_of_mem_filter (List.mem_of_mem_take member))).2]
        rfl
      rw [localityLe, plain a left, plain b right]
      rfl
    rw [sortBlocks_of_pairwise _ _ level, ← strictCandidates_eq]
    rfl
  | rich set => rfl

/-- The token of a record stands for its key in either form. -/
theorem token_toKey (record : ItemRecord Priority Value Typed) :
    (token sort record).toKey = eligKey sort record := by
  rw [token]
  split
  · next compact =>
    simp only [canCompact, Bool.and_eq_true, Option.isNone_iff_eq_none] at compact
    simp [EligToken.toKey, plainKey, eligKey, compact]
  · rfl

theorem token_inj {left right : ItemRecord Priority Value Typed}
    (same : token sort left = token sort right) : eligKey sort left = eligKey sort right := by
  rw [← token_toKey, same, token_toKey]

variable {sort}

/-- Taking the key of a record out of an index that has no other key of the item. -/
theorem mem_keys_remove
    (only : ∀ key ∈ index.keys, key.item = record.itemId → key = eligKey sort record) :
    key ∈ (index.remove (token sort record)).keys ↔
      key ∈ index.keys ∧ key.item ≠ record.itemId := by
  cases index with
  | compact set =>
    rw [remove, mem_keys_compact, ExtTreeSet.mem_erase, token_toKey]
    constructor
    · rintro ⟨⟨different, member⟩, plain⟩
      have here : key ∈ (compact set).keys := mem_keys_compact.mpr ⟨member, plain⟩
      refine ⟨here, fun item => different ?_⟩
      rw [only key here item]
      simp [eligKey]
    · rintro ⟨member, different⟩
      obtain ⟨member, plain⟩ := mem_keys_compact.mp member
      refine ⟨⟨fun equal => different ?_, member⟩, plain⟩
      exact (congrArg Prod.snd (LawfulEqCmp.eq_of_compare equal)).symm
  | rich set =>
    rw [remove, mem_keys_rich, ExtTreeSet.mem_erase, token_toKey, mem_keys_rich]
    constructor
    · rintro ⟨different, member⟩
      refine ⟨member, fun item => different ?_⟩
      rw [only key (mem_keys_rich.mpr member) item]
      exact ReflOrd.compare_self
    · rintro ⟨member, different⟩
      refine ⟨fun equal => different ?_, member⟩
      rw [← LawfulEqCmp.eq_of_compare equal]
      rfl

theorem mem_foldl_promote (items : BTreeMap ItemId (ItemRecord Priority Value Typed))
    (entries : List (UInt64 × ItemId)) (start : BTreeSet EligKey) :
    key ∈ entries.foldl (fun keys entry =>
        match items[entry.2]? with
        | some record => keys.insert (eligKey sort record)
        | none => keys) start ↔
      key ∈ start ∨ ∃ entry ∈ entries, ∃ record, items[entry.2]? = some record ∧
        eligKey sort record = key := by
  induction entries generalizing start with
  | nil => simp
  | cons entry rest ih =>
    rw [List.foldl_cons, ih]
    cases found : items[entry.2]? with
    | none => simp [found]
    | some record =>
      simp only [ExtTreeSet.mem_insert, LawfulEqCmp.compare_eq_iff_eq, List.mem_cons,
        exists_eq_or_imp, found, Option.some.injEq, exists_eq_left']
      tauto

/-- Inserting a record into an index whose keys are those of resident records. -/
theorem mem_keys_insert {items : BTreeMap ItemId (ItemRecord Priority Value Typed)}
    (backed : ∀ key ∈ index.keys, ∃ resident, items[key.item]? = some resident ∧
      eligKey sort resident = key) :
    key ∈ (index.insert sort record items).keys ↔ key ∈ index.keys ∨ key = eligKey sort record := by
  cases index with
  | compact set =>
    rw [insert]
    split
    · next plain =>
      have own : eligKey sort record = plainKey record.createdSeq record.itemId := by
        rw [← token_toKey, token, if_pos plain]
        rfl
      rw [mem_keys_compact, ExtTreeSet.mem_insert, LawfulEqCmp.compare_eq_iff_eq, mem_keys_compact,
        own, Prod.mk.injEq]
      constructor
      · rintro ⟨⟨seq, item⟩ | member, same⟩
        · exact .inr (by rw [same, seq, item])
        · exact .inl ⟨member, same⟩
      · rintro (⟨member, same⟩ | rfl)
        · exact ⟨.inr member, same⟩
        · exact ⟨.inl ⟨rfl, rfl⟩, rfl⟩
    · rw [mem_keys_rich, ExtTreeSet.mem_insert, LawfulEqCmp.compare_eq_iff_eq, promote,
        mem_foldl_promote]
      have promoted : (key ∈ (∅ : BTreeSet EligKey) ∨ ∃ entry ∈ set.toList, ∃ record,
          items[entry.2]? = some record ∧ eligKey sort record = key) ↔
          key ∈ (compact set).keys := by
        rw [mem_keys_compact]
        constructor
        · rintro (none | ⟨entry, member, resident, found, rfl⟩)
          · simp at none
          · have here : plainKey entry.1 entry.2 ∈ (compact set).keys :=
              mem_keys_compact.mpr ⟨ExtTreeSet.mem_toList.mp member, rfl⟩
            obtain ⟨resident', found', same⟩ := backed _ here
            rw [show items[(plainKey entry.1 entry.2).item]? = items[entry.2]? from rfl,
              found] at found'
            cases found'
            rw [same]
            exact ⟨ExtTreeSet.mem_toList.mp member, rfl⟩
        · rintro ⟨member, plain⟩
          obtain ⟨resident, found, same⟩ := backed key (mem_keys_compact.mpr ⟨member, plain⟩)
          exact .inr ⟨_, ExtTreeSet.mem_toList.mpr member, resident, found, same⟩
      rw [promoted, or_comm, eq_comm]
  | rich set =>
    rw [insert, mem_keys_rich, ExtTreeSet.mem_insert, LawfulEqCmp.compare_eq_iff_eq, mem_keys_rich,
      or_comm, eq_comm]

end EligibilityIndex

/-! ## Tracking the eligible records -/

section Tracking

variable (sort : Priority → Bytes) (items : BTreeMap ItemId (ItemRecord Priority Value Typed))
  (eligible : ItemRecord Priority Value Typed → Bool)

/-- The index holds the key of every eligible record and no other key. -/
def Tracks (index : EligibilityIndex) : Prop :=
  ∀ key, key ∈ index.keys ↔ ∃ record, items[key.item]? = some record ∧ eligible record = true ∧
    eligKey sort record = key

/-- The index tracks every record but that of one item, of which it has no key. -/
def TracksExcept (id : ItemId) (index : EligibilityIndex) : Prop :=
  ∀ key, key ∈ index.keys ↔ key.item ≠ id ∧ ∃ record, items[key.item]? = some record ∧
    eligible record = true ∧ eligKey sort record = key

variable {sort items eligible} {id : ItemId} {index : EligibilityIndex}
  {record : ItemRecord Priority Value Typed}

theorem Tracks.remove (tracks : Tracks sort items eligible index)
    (resident : items[id]? = some record) (own : record.itemId = id) :
    TracksExcept sort items eligible id (index.remove (EligibilityIndex.token sort record)) := by
  have only : ∀ key ∈ index.keys, key.item = record.itemId → key = eligKey sort record := by
    intro key member item
    obtain ⟨other, found, _, rfl⟩ := (tracks key).mp member
    rw [item, own, resident] at found
    cases found
    rfl
  intro key
  rw [EligibilityIndex.mem_keys_remove only, tracks key, own, and_comm]

theorem Tracks.except_of_ineligible (tracks : Tracks sort items eligible index)
    (ineligible : ∀ record, items[id]? = some record → eligible record = false) :
    TracksExcept sort items eligible id index := by
  intro key
  rw [tracks key]
  refine ⟨fun here => ⟨fun item => ?_, here⟩, fun here => here.2⟩
  obtain ⟨other, found, good, _⟩ := here
  rw [ineligible other (item ▸ found)] at good
  cases good

variable {eligible' : ItemRecord Priority Value Typed → Bool}
  {items' : BTreeMap ItemId (ItemRecord Priority Value Typed)}

section

variable (tracks : TracksExcept sort items eligible id index)

include tracks

/-- What happens to the one item does not matter. -/
theorem TracksExcept.congr (same : ∀ a, a ≠ id → items'[a]? = items[a]?)
    (agree : ∀ a record, a ≠ id → items[a]? = some record → eligible' record = eligible record) :
    TracksExcept sort items' eligible' id index := by
  intro key
  rw [tracks key]
  refine and_congr_right fun other => ?_
  rw [same _ other]
  refine exists_congr fun record => and_congr_right fun found => ?_
  rw [agree _ record other found]

/-- Entering the record of the item completes the index. The records at hand may be those of before
or after the item's own change. -/
theorem TracksExcept.insert {atHand : BTreeMap ItemId (ItemRecord Priority Value Typed)}
    (same : ∀ a, a ≠ id → atHand[a]? = items[a]?) (resident : items[id]? = some record)
    (own : record.itemId = id) (good : eligible record = true) :
    Tracks sort items eligible (index.insert sort record atHand) := by
  have backed : ∀ key ∈ index.keys, ∃ resident, atHand[key.item]? = some resident ∧
      eligKey sort resident = key := by
    intro key member
    obtain ⟨other, resident, found, _, same'⟩ := (tracks key).mp member
    exact ⟨resident, (same _ other).trans found, same'⟩
  intro key
  rw [EligibilityIndex.mem_keys_insert backed, tracks key]
  constructor
  · rintro (⟨_, here⟩ | rfl)
    · exact here
    · exact ⟨record, by rw [← resident, ← own]; rfl, good, rfl⟩
  · rintro ⟨other, found, here, rfl⟩
    by_cases item : (eligKey sort other).item = id
    · rw [item, resident] at found
      cases found
      exact .inr rfl
    · exact .inl ⟨item, other, found, here, rfl⟩

theorem TracksExcept.done
    (ineligible : ∀ record, items[id]? = some record → eligible record = false) :
    Tracks sort items eligible index := by
  intro key
  rw [tracks key]
  refine ⟨fun here => here.2, fun here => ⟨fun item => ?_, here⟩⟩
  obtain ⟨other, found, good, _⟩ := here
  rw [ineligible other (item ▸ found)] at good
  cases good

end

/-- A change of records that keeps eligibility and keys. -/
theorem Tracks.congr (tracks : Tracks sort items eligible index)
    (same : ∀ a : ItemId, (items'[a]?.filter eligible').map (eligKey sort) =
      (items[a]?.filter eligible).map (eligKey sort)) : Tracks sort items' eligible' index := by
  have key_of : ∀ (items : BTreeMap ItemId (ItemRecord Priority Value Typed))
      (eligible : ItemRecord Priority Value Typed → Bool) (key : EligKey),
      (∃ record, items[key.item]? = some record ∧ eligible record = true ∧
        eligKey sort record = key) ↔
      (items[key.item]?.filter eligible).map (eligKey sort) = some key := by
    intro items eligible key
    cases items[key.item]? <;> simp [Option.filter, ite_eq_iff]
  intro key
  rw [tracks key, key_of, key_of, same]

/-- A change of the test that no resident record notices. -/
theorem Tracks.agree (tracks : Tracks sort items eligible index)
    (same : ∀ (a : ItemId) record, items[a]? = some record → eligible' record = eligible record) :
    Tracks sort items eligible' index := by
  intro key
  rw [tracks key]
  refine exists_congr fun record => and_congr_right fun found => ?_
  rw [same key.item record found]

end Tracking

end Projection
