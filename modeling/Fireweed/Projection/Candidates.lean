import Fireweed.Projection.ClaimOrder
import Fireweed.Projection.Rebuild

/-!
# The candidates of a claim

The order a claim should follow is read off the records: the eligible items that
are due, priced ones first by their priority bytes, then by age. The index gives
the first items of that list, in relaxed mode up to the declared rank error, and
a projection rebuilt from its image gives the same answers.
-/

namespace Projection

open BTree BlockSort Checked Domain List Runs Scripts Std EligibilityIndex Projection

variable {Priority Value Typed : Type}

/-- The schedule of a record has been reached. -/
def ItemRecord.dueAt (record : ItemRecord Priority Value Typed) (now : UtcTimestamp) : Bool :=
  record.notBefore.all fun notBefore => decide (notBefore ≤ now)

variable {record : ItemRecord Priority Value Typed}

section Order

attribute [local instance] lexOrd

/-- Priced before unpriced, then the priority bytes, then age, then id. -/
def claimRank (sort : Priority → Bytes) (record : ItemRecord Priority Value Typed) :
    (Bool × Bytes) × UInt64 × ItemId :=
  ((record.priority.isNone, (record.priority.map sort).getD []), record.createdSeq, record.itemId)

def claimLe (sort : Priority → Bytes) (a b : ItemRecord Priority Value Typed) : Bool :=
  (compare (claimRank sort a) (claimRank sort b)).isLE

/-- The records a claim may take now. -/
def claimable (data : ProjectionData Priority Value Typed) (now : UtcTimestamp) :
    List (ItemRecord Priority Value Typed) :=
  (data.items.toList.map Prod.snd).filter fun record =>
    isEligible data.blockedGates record && record.dueAt now

/-- The items a claim may take now, in the order in which it should take them. -/
def strictOrder (definition : QueueDefinition Priority Value Typed)
    (data : ProjectionData Priority Value Typed) (now : UtcTimestamp) : List ItemId :=
  ((claimable data now).mergeSort (claimLe definition.prioritySort)).map ItemRecord.itemId

/-- The part of a key that decides the order of different items. -/
def EligKey.claimRank (key : EligKey) : (Bool × Bytes) × UInt64 × ItemId :=
  (key.rank.sortKey, key.createdSeq, key.item)

variable (sort : Priority → Bytes)

theorem claimRank_eligKey (record : ItemRecord Priority Value Typed) :
    (eligKey sort record).claimRank = claimRank sort record := by
  cases priority : record.priority <;>
    simp [EligKey.claimRank, claimRank, eligKey, priority, EligRank.sortKey]

/-- Keys of different items are ordered by their ranks. -/
theorem compare_claimRank {a b : EligKey} (different : a.item ≠ b.item) :
    compare a.claimRank b.claimRank = compare a b := by
  have decided : ∀ rest : Ordering, (compare a.item b.item).then rest = compare a.item b.item := by
    intro rest
    cases order : compare a.item b.item with
    | eq => exact absurd (LawfulEqCmp.eq_of_compare order) different
    | lt => rfl
    | gt => rfl
  change (compare a.rank.sortKey b.rank.sortKey).then ((compare a.createdSeq b.createdSeq).then
    (compare a.item b.item)) = (compare a.rank.sortKey b.rank.sortKey).then
      ((compare a.createdSeq b.createdSeq).then ((compare a.item b.item).then _))
  rw [decided]

theorem claimLe_total (a b : ItemRecord Priority Value Typed) :
    (claimLe sort a b || claimLe sort b a) = true := by
  have swap : compare (claimRank sort b) (claimRank sort a) =
      (compare (claimRank sort a) (claimRank sort b)).swap := OrientedOrd.eq_swap
  rw [claimLe, claimLe, swap]
  cases compare (claimRank sort a) (claimRank sort b) <;> rfl

theorem claimLe_trans (a b c : ItemRecord Priority Value Typed) (ab : claimLe sort a b = true)
    (bc : claimLe sort b c = true) : claimLe sort a c = true :=
  TransOrd.isLE_trans ab bc

theorem dueAt_eligKey (record : ItemRecord Priority Value Typed) (now : UtcTimestamp) :
    dueAt (eligKey sort record) now = record.dueAt now := by
  cases notBefore : record.notBefore <;>
    simp [dueAt, ItemRecord.dueAt, eligKey, notBefore]

variable {definition : QueueDefinition Priority Value Typed}
  {data : ProjectionData Priority Value Typed}

theorem mem_claimable {now : UtcTimestamp} :
    record ∈ claimable data now ↔ (∃ id : ItemId, data.items[id]? = some record) ∧
      isEligible data.blockedGates record = true ∧ record.dueAt now = true := by
  rw [claimable, mem_filter, mem_map, Bool.and_eq_true]
  refine and_congr_left fun _ => ?_
  constructor
  · rintro ⟨⟨id, record⟩, member, rfl⟩
    exact ⟨id, (mem_toList_iff ..).mp member⟩
  · rintro ⟨id, found⟩
    exact ⟨(id, record), (mem_toList_iff ..).mpr found, rfl⟩

section

variable (resident : data.Resident definition)

include resident

theorem itemIds_nodup : ((data.items.toList.map Prod.snd).map ItemRecord.itemId).Nodup := by
  have same : data.items.toList.map (fun entry => entry.2.itemId) =
      data.items.toList.map Prod.fst := map_congr_left fun entry member =>
    resident.keyed entry.1 entry.2 ((mem_toList_iff ..).mp member)
  rw [List.map_map]
  exact same ▸ keys_toList_nodup data.items

theorem strictOrder_nodup (now : UtcTimestamp) : (strictOrder definition data now).Nodup := by
  rw [strictOrder, ((mergeSort_perm _ _).map ItemRecord.itemId).nodup_iff]
  exact (itemIds_nodup resident).sublist (filter_sublist.map _)

theorem sorted_claimable_ranks (now : UtcTimestamp) :
    (((claimable data now).mergeSort (claimLe definition.prioritySort)).map
      (claimRank definition.prioritySort)).Pairwise fun a b => compare a b = .lt := by
  have ordered := pairwise_mergeSort (claimLe_trans definition.prioritySort)
    (claimLe_total definition.prioritySort) (claimable data now)
  rw [pairwise_map]
  refine (ordered.and (pairwise_map.mp (strictOrder_nodup resident now))).imp ?_
  rintro a b ⟨le, different⟩
  cases order : compare (claimRank definition.prioritySort a) (claimRank definition.prioritySort b)
  · rfl
  · have same := LawfulEqCmp.eq_of_compare order
    exact absurd (congrArg (·.2.2) same) different
  · rw [claimLe, order] at le
    cases le

theorem keys_eq_strictOrder {index : EligibilityIndex}
    (tracks : Tracks definition.prioritySort data.items (isEligible data.blockedGates) index)
    (now : UtcTimestamp) :
    (index.keys.filter (dueAt · now)).map EligKey.item =
      strictOrder definition data now := by
  have ascending : ((index.keys.filter (dueAt · now)).map EligKey.claimRank).Pairwise
      fun a b => compare a b = .lt := by
    rw [pairwise_map]
    refine ((keys_ordered index).filter _).imp_of_mem ?_
    intro a b left right less
    rw [compare_claimRank ?_, less]
    intro same
    obtain ⟨record, found, _, rfl⟩ := (tracks a).mp (mem_of_mem_filter left)
    obtain ⟨record', found', _, rfl⟩ := (tracks b).mp (mem_of_mem_filter right)
    rw [same, found'] at found
    cases found
    rw [ReflOrd.compare_self] at less
    cases less
  have ranks : (index.keys.filter (dueAt · now)).map EligKey.claimRank =
      ((claimable data now).mergeSort (claimLe definition.prioritySort)).map
        (claimRank definition.prioritySort) := by
    refine ascending_unique ascending (sorted_claimable_ranks resident now) fun rank => ?_
    simp only [mem_map, mem_filter, mem_mergeSort, mem_claimable]
    constructor
    · rintro ⟨_, ⟨member, due⟩, rfl⟩
      obtain ⟨record, found, eligible, rfl⟩ := (tracks _).mp member
      exact ⟨record, ⟨⟨_, found⟩, eligible, (dueAt_eligKey ..).symm.trans due⟩,
        (claimRank_eligKey ..).symm⟩
    · rintro ⟨record, ⟨⟨id, found⟩, eligible, due⟩, rfl⟩
      have own : record.itemId = id := resident.keyed id record found
      refine ⟨eligKey definition.prioritySort record,
        ⟨(tracks _).mpr ?_, (dueAt_eligKey ..).trans due⟩, claimRank_eligKey ..⟩
      exact ⟨record, by rw [show (eligKey definition.prioritySort record).item = id from own,
        found],
        eligible, rfl⟩
  have items := congrArg (List.map (·.2.2)) ranks
  rw [List.map_map, List.map_map] at items
  exact items

end

end Order

namespace ProjectionData

variable {definition : QueueDefinition Priority Value Typed}
  {data : ProjectionData Priority Value Typed}

/-- What a claimer may rely on in a state of the queue. -/
structure ClaimsInOrder (definition : QueueDefinition Priority Value Typed)
    (data : ProjectionData Priority Value Typed) : Prop where
  paused : data.paused = true → ∀ now max, data.eligibleCandidates definition now max = []
  strict : data.paused = false → definition.orderingMode = .strict ∨ definition.maxRankError = 0 →
    ∀ now max, data.eligibleCandidates definition now max =
      (strictOrder definition data now).take max
  /-- No item stands further from its strict place than the declared error. -/
  relaxed : data.paused = false → definition.orderingMode = .boundedRelaxed → ∀ now max,
    (data.eligibleCandidates definition now max).Perm ((strictOrder definition data now).take max) ∧
      ∀ (i j : Nat) id, (data.eligibleCandidates definition now max)[i]? = some id →
        ((strictOrder definition data now).take max)[j]? = some id →
        i ≤ j + definition.maxRankError.toNat ∧ j ≤ i + definition.maxRankError.toNat
  rebuilt : ∃ rebuilt, fromImage definition data.toImage = .ok rebuilt ∧ ∀ now max,
    rebuilt.eligibleCandidates definition now max = data.eligibleCandidates definition now max

/-- An exact index answers strictly, or up to the rank error. -/
theorem eligibleCandidates_eq (data : ProjectionData Priority Value Typed) (now : UtcTimestamp)
    (max : Nat) : data.eligibleCandidates definition now max =
      if data.paused then []
      else if rankBound definition = 0 then
        ((data.eligible.keys.filter (dueAt · now)).take max).map EligKey.item
      else (sortBlocks localityLe ((rankBound definition).toNat + 1)
        ((data.eligible.keys.filter (dueAt · now)).take max)).map EligKey.item := by
  rw [eligibleCandidates]
  split
  · rfl
  · split
    · exact strictCandidates_eq _ now max
    · split
      · next zero =>
        subst zero
        rfl
      · exact relaxedCandidates_eq _ now max _

/-- Projections with the same keys give the same candidates. -/
theorem eligibleCandidates_congr {other : ProjectionData Priority Value Typed}
    (paused : other.paused = data.paused) (keys : other.eligible.keys = data.eligible.keys)
    (now : UtcTimestamp) (max : Nat) :
    other.eligibleCandidates definition now max = data.eligibleCandidates definition now max := by
  rw [eligibleCandidates_eq, eligibleCandidates_eq, paused, keys]

/-- An index is determined by what it tracks. -/
theorem keys_unique {sort : Priority → Bytes}
    {items : BTreeMap ItemId (ItemRecord Priority Value Typed)}
    {eligible : ItemRecord Priority Value Typed → Bool} {left right : EligibilityIndex}
    (tracksLeft : Tracks sort items eligible left)
    (tracksRight : Tracks sort items eligible right) : left.keys = right.keys :=
  ascending_unique (keys_ordered left) (keys_ordered right)
    fun key => (tracksLeft key).trans (tracksRight key).symm

theorem isEligible_rebuilt (blockedGates : BTreeSet String) (documents : Documents Value Typed)
    (record : ItemRecord Priority Value Typed) :
    isEligible blockedGates (rebuiltRecord documents record) = isEligible blockedGates record :=
  rfl

/-- The entry of a record into a rebuilt projection. -/
theorem InOrder.afterRestore (inOrder : InOrder definition data)
    (fresh : data.items[record.itemId]? = none) :
    InOrder definition (data.afterRestore definition record) where
  tracks := by
    have except : TracksExcept definition.prioritySort (data.items.insert record.itemId record)
        (isEligible data.blockedGates) record.itemId data.eligible := by
      refine (inOrder.tracks.except_of_ineligible fun other here => ?_).congr
        (fun a different => get_insert_ne _ _ different.symm) fun _ _ _ _ => rfl
      rw [fresh] at here
      cases here
    dsimp only [ProjectionData.afterRestore, restored]
    split
    · next eligible =>
      exact except.insert (fun a different => (get_insert_ne _ _ different.symm).symm)
        (get_insert_self ..) rfl eligible
    · next ineligible =>
      exact except.done (of_get_insert (by simpa using ineligible))
  gated := by
    refine gated_put inOrder rfl (fun a key _ held => ?_) fun _ key member => ?_
    · exact (Buckets.has_foldl_add ..).mpr (.inr held)
    · exact (Buckets.has_foldl_add ..).mpr (.inl ⟨member, rfl⟩)

theorem inOrder_rebuilt (resident : Resident definition data) :
    InOrder definition (data.rebuilt definition) := by
  refine rebuilt_invariant resident ?_ fun base record _ inOrder fresh => inOrder.afterRestore fresh
  refine ⟨fun key => ?_, fun id record found => ?_⟩
  · simp [imageBase, ProjectionData.new, EligibilityIndex.new, EligibilityIndex.keys]
  · simp [imageBase, ProjectionData.new] at found

theorem rebuilt_candidates (resident : Resident definition data) (inOrder : InOrder definition data)
    (now : UtcTimestamp) (max : Nat) :
    (data.rebuilt definition).eligibleCandidates definition now max =
      data.eligibleCandidates definition now max := by
  obtain ⟨paused, gates⟩ := rebuilt_control definition data
  refine eligibleCandidates_congr paused (keys_unique ?_ inOrder.tracks) now max
  have tracks := (inOrder_rebuilt resident).tracks
  rw [gates] at tracks
  refine tracks.congr fun a => ?_
  rw [rebuilt_items resident]
  cases data.items[a]? with
  | none => rfl
  | some record =>
    rw [Option.map_some, Option.filter_some, Option.filter_some, isEligible_rebuilt]
    split <;> rfl

theorem InOrder.claims (inOrder : InOrder definition data) (resident : Resident definition data) :
    ClaimsInOrder definition data where
  paused held now max := by rw [eligibleCandidates_eq, if_pos held]
  strict running mode now max := by
    have zero : rankBound definition = 0 := by
      rw [rankBound]
      split
      · next relaxed => exact mode.resolve_left (by simp [relaxed])
      · rfl
    rw [eligibleCandidates_eq, running, zero, ← keys_eq_strictOrder resident inOrder.tracks now,
      map_take]
    rfl
  relaxed running mode now max := by
    have bound : rankBound definition = definition.maxRankError := by rw [rankBound, mode]
    have order := keys_eq_strictOrder resident inOrder.tracks now
    have distinct : ((strictOrder definition data now).take max).Nodup :=
      (strictOrder_nodup resident now).sublist (take_sublist ..)
    rw [eligibleCandidates_eq, running, bound]
    simp only [Bool.false_eq_true, if_false]
    split
    · rw [map_take, order]
      refine ⟨.refl _, fun i j id left right => ?_⟩
      have same : i = j := by
        obtain ⟨small, _⟩ := List.getElem?_eq_some_iff.mp left
        exact (List.getElem?_inj small distinct).mp (left.trans right.symm)
      omega
    · have strict : ((data.eligible.keys.filter (dueAt · now)).take max).map
          EligKey.item = (strictOrder definition data now).take max := by
        rw [map_take, order]
      rw [← strict] at distinct ⊢
      refine ⟨(sortBlocks_perm ..).map _, fun i j id left right => ?_⟩
      have near := sortBlocks_displacement _ _ (Nat.succ_pos _) distinct left right
      omega
  rebuilt := ⟨data.rebuilt definition, fromImage_toImage resident,
    rebuilt_candidates resident inOrder⟩

end ProjectionData

section Runs

variable [DecidableEq Priority] [DecidableEq Value]
  {definition : QueueDefinition Priority Value Typed}
  {data : ProjectionData Priority Value Typed}

/-- Claims are in order in every state of every run, if every document path has one type. -/
theorem reaches_claimsInOrder (oneType : definition.OneTypePerPath)
    {actions : List (Stamp × Action Priority Value Typed)}
    (run : Reaches definition actions data) : data.ClaimsInOrder definition := by
  obtain ⟨resident, inOrder⟩ := reaches_invariant oneType (ProjectionData.inOrder_new definition)
    (fun _ _ _ _ resident inOrder _ effect => effect.inOrder resident inOrder) run
  exact inOrder.claims resident

end Runs

/-! ## Two small queues -/

/-- Documents that are flat objects of strings; their members are strings. -/
inductive FlatJson where
  | string (text : String)
  | object (members : List (String × String))
deriving DecidableEq

def asciiBytes (text : String) : Bytes := text.toList.map fun c => UInt8.ofNat c.toNat

/-- The operations on flat documents. Paths have one part; pointers are not used. -/
def flatDocuments : Documents FlatJson String where
  extractPath
    | .object members, path => (members.lookup path).map .string
    | .string _, _ => none
  isNull _ := false
  jsonToTypedValue
    | .string text, .string => .ok text
    | .object _, .string => .error (.invalid "typed index field requires string value")
    | _, .integer => .error (.invalid "typed index field requires integer value")
    | _, .float => .error (.invalid "typed index field requires float value")
    | _, .boolean => .error (.invalid "typed index field requires boolean value")
    | _, .datetime => .error (.invalid "typed index field requires datetime value")
  framedTypedValue
    | text, .string => .ok (lengthBytes text.length ++ asciiBytes text)
    | _, _ => .error (.invalid "typed index field value does not match declared IndexType")
  indexFieldsAsEntity fields := .ok (.object fields.toList)
  pointer _ _ := none
  validPointer _ := false
  applyEntityEdit _ _ _ := none

/-- A strict queue without priorities over flat documents. -/
def flatDefinition (typedIndexes : List QueueIndex) : QueueDefinition Unit FlatJson String where
  documents := flatDocuments
  prioritySort _ := []
  priorityOfKind _ := true
  orderingMode := .strict
  maxRankError := 0
  recurrence := ⟨.oneshot, none⟩
  secondaryIndexes := []
  typedIndexes := typedIndexes
  gateKeyPolicy := .dynamic
  maxGateKeysPerItem := none
  maxGatesPerRequest := none

def flatItem (key : ClientItemKey) (id : ItemId) (entity : Option FlatJson) :
    PushItem Unit FlatJson String where
  clientItemKey := key
  itemId := id
  priority := none
  notBefore := none
  groupKey := none
  maxAttempts := 3
  cohortSize := none
  payload := none
  fields := ∅
  metadata := ∅
  gateKeys := []
  indexFields := ∅
  entityDocument := entity

/-- The path `p` is a string for one index and an integer for the other. -/
def twoTyped : QueueDefinition Unit FlatJson String :=
  flatDefinition [⟨"by_p", .single ⟨"p", .string⟩ false⟩,
    ⟨"by_q_p", .compound [⟨"q", .string⟩, ⟨"p", .integer⟩] false⟩]

/-- An item is upserted, and then replaced by one whose document has the path. -/
def replaceWithDocument : List (Stamp × Action Unit FlatJson String) :=
  [(⟨none, none⟩, .upsert (flatItem "a" 1 none)),
    (⟨none, none⟩, .upsert (flatItem "a" 2 (some (.object [("p", "x")]))))]

/-- The replacement passes its check, enters the eligibility index and then fails for want of index
keys: the queue offers an item it does not have. -/
theorem replacement_offered_not_resident :
    ∃ data, Reaches twoTyped replaceWithDocument data ∧ data.items[(2 : ItemId)]?.isNone = true ∧
      data.eligibleCandidates twoTyped epoch 1 = [2] ∧ ¬data.ClaimsInOrder twoTyped := by
  have computed : (runAll (perform twoTyped) (.new twoTyped) replaceWithDocument).map (fun data =>
      (data.items[(2 : ItemId)]?.isNone, data.eligibleCandidates twoTyped epoch 1, data.paused,
        (claimable data epoch).map ItemRecord.itemId)) = some (true, [2], false, []) := by
    decide +kernel
  obtain ⟨data, performed, observed⟩ := Option.map_eq_some_iff.mp computed
  simp only [Prod.mk.injEq, map_eq_nil_iff] at observed
  obtain ⟨absent, offered, running, none⟩ := observed
  refine ⟨data, runAll_run (perform_step twoTyped) performed, absent, offered, fun claims => ?_⟩
  have strict := claims.strict running (.inl rfl) epoch 1
  rw [offered, strictOrder, none] at strict
  simp at strict

/-- The path `p` is a string for both indexes. -/
def oneTyped : QueueDefinition Unit FlatJson String :=
  flatDefinition [⟨"by_p", .single ⟨"p", .string⟩ false⟩,
    ⟨"by_q_p", .compound [⟨"q", .string⟩, ⟨"p", .string⟩] false⟩]

theorem reaches_claimsInOrder_sample :
    oneTyped.OneTypePerPath ∧ ∃ data, Reaches oneTyped replaceWithDocument data ∧
      data.eligibleCandidates oneTyped epoch 1 = [2] ∧ data.ClaimsInOrder oneTyped := by
  have oneType : oneTyped.OneTypePerPath := by
    simp [QueueDefinition.OneTypePerPath, Documents.OneType, Documents.declaredIndexFieldPaths,
      oneTyped, flatDefinition, IndexDeclaration.fields]
  have computed : (runAll (perform oneTyped) (.new oneTyped) replaceWithDocument).map (fun data =>
      data.eligibleCandidates oneTyped epoch 1) = some [2] := by
    decide +kernel
  obtain ⟨data, performed, offered⟩ := Option.map_eq_some_iff.mp computed
  have run := runAll_run (perform_step oneTyped) performed
  exact ⟨oneType, data, run, offered, reaches_claimsInOrder oneType run⟩

end Projection
