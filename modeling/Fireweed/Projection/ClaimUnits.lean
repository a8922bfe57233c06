import Fireweed.Projection.Candidates
import Fireweed.Projection.RichClaims

/-!
# What the claim units select

In every reachable state the candidates are the claimable items, each group in
strict order. Items, items of one group and whole groups are taken from them outside
of cohorts, whole groups are complete, and a cohort is taken as a whole. An item
claim without a predicate is the exception: it takes members of cohorts as well.
-/

namespace Projection

open BTree BlockSort Checked Domain Grouping List Runs Scripts Std

variable {Priority Value Typed : Type}

/-- A record outside of cohorts that has what a claim asks for. -/
structure ClaimCompatibility.Fits (compatibility : ClaimCompatibility)
    (record : ItemRecord Priority Value Typed) : Prop where
  outside : record.cohortSize = none
  group : ∀ required, compatibility.groupKey = some required → record.groupKey = some required
  metadata : ∀ (name : String) value, compatibility.metadataEquals[name]? = some value →
    record.metadata[name]? = some value

namespace ProjectionData

def groupOf (data : ProjectionData Priority Value Typed) (id : ItemId) : Option GroupKey :=
  data.items[id]?.bind ItemRecord.groupKey

/-- A claimable item that fits. -/
def Suitable (data : ProjectionData Priority Value Typed) (now : UtcTimestamp)
    (compatibility : ClaimCompatibility) (id : ItemId) : Prop :=
  ∃ record, data.items[id]? = some record ∧ isEligible data.blockedGates record = true ∧
    record.dueAt now = true ∧ compatibility.Fits record

variable {id : ItemId} {selected ids : List ItemId} {group : GroupKey}

section Order

variable {definition : QueueDefinition Priority Value Typed}
  {data : ProjectionData Priority Value Typed} {now : UtcTimestamp}

theorem mem_strictOrder (resident : data.Resident definition) :
    id ∈ strictOrder definition data now ↔ ∃ record, data.items[id]? = some record ∧
      isEligible data.blockedGates record = true ∧ record.dueAt now = true := by
  simp only [strictOrder, mem_map, mem_mergeSort, mem_claimable]
  constructor
  · rintro ⟨record, ⟨⟨a, found⟩, eligible, due⟩, rfl⟩
    rw [resident.keyed a record found]
    exact ⟨record, found, eligible, due⟩
  · rintro ⟨record, found, eligible, due⟩
    exact ⟨record, ⟨⟨id, found⟩, eligible, due⟩, resident.keyed id record found⟩

section

variable (resident : data.Resident definition) (inOrder : InOrder definition data)

include resident inOrder

/-- Within a group the candidates stand in strict order, in either ordering mode. -/
theorem candidates_group (running : data.paused = false) (max : Nat) (group : Option GroupKey) :
    (data.eligibleCandidates definition now max).filter
        (fun id => decide (data.groupOf id = group)) =
      ((strictOrder definition data now).take max).filter
        (fun id => decide (data.groupOf id = group)) := by
  rw [← keys_eq_strictOrder resident inOrder.tracks now, ← map_take, eligibleCandidates_eq, running]
  generalize kept : (data.eligible.keys.filter (Projection.dueAt · now)).take max = keys
  have own : ∀ key ∈ keys, data.groupOf key.item = key.groupKey := by
    intro key member
    rw [← kept] at member
    obtain ⟨record, found, _, rfl⟩ :=
      (inOrder.tracks key).mp (mem_of_mem_filter (mem_of_mem_take member))
    rw [groupOf, found]
    rfl
  have byKey : ∀ l : List EligKey, (∀ key ∈ l, key ∈ keys) →
      (l.map EligKey.item).filter (fun id => decide (data.groupOf id = group)) =
        (l.filter fun key => decide (key.groupKey = group)).map EligKey.item := by
    intro l inside
    rw [filter_map]
    refine congrArg _ (filter_congr fun key member => ?_)
    rw [Function.comp, own key (inside key member)]
  rw [byKey keys fun _ member => member]
  simp only [Bool.false_eq_true, if_false]
  split
  · exact byKey keys fun _ member => member
  · rw [byKey _ fun key member => (sortBlocks_perm ..).mem_iff.mp member, sortBlocks_filter]
    · exact localityLe_trans
    · exact localityLe_total
    · intro a b left right
      exact localityLe_of_group ((of_decide_eq_true left).trans (of_decide_eq_true right).symm)

theorem candidates_perm (running : data.paused = false) (now : UtcTimestamp) (max : Nat) :
    (data.eligibleCandidates definition now max).Perm
      ((strictOrder definition data now).take max) := by
  have claims := inOrder.claims resident
  cases mode : definition.orderingMode with
  | strict =>
    rw [claims.strict running (.inl mode)]
  | boundedRelaxed => exact (claims.relaxed running mode now max).1

theorem strictOrder_length :
    (strictOrder definition data now).length ≤ data.eligible.keys.length := by
  rw [← keys_eq_strictOrder resident inOrder.tracks now, length_map]
  exact length_filter_le ..

/-- Without a limit the candidates are the items of the strict order. -/
theorem allCandidates_perm (running : data.paused = false) :
    (data.allCandidates definition now).Perm (strictOrder definition data now) := by
  have all : (data.allCandidates definition now).Perm _ :=
    candidates_perm resident inOrder running now data.eligible.keys.length
  rwa [take_of_length_le (strictOrder_length resident inOrder)] at all

theorem allCandidates_group (running : data.paused = false) (group : Option GroupKey) :
    (data.allCandidates definition now).filter (fun id => decide (data.groupOf id = group)) =
      (strictOrder definition data now).filter (fun id => decide (data.groupOf id = group)) := by
  rw [allCandidates, candidates_group resident inOrder running,
    take_of_length_le (strictOrder_length resident inOrder)]

/-- The candidates are exactly the claimable items of a queue that is not paused. -/
theorem mem_allCandidates :
    id ∈ data.allCandidates definition now ↔ data.paused = false ∧
      ∃ record, data.items[id]? = some record ∧ isEligible data.blockedGates record = true ∧
        record.dueAt now = true := by
  cases paused : data.paused with
  | true =>
    rw [allCandidates, eligibleCandidates_eq, paused]
    simp
  | false =>
    rw [(allCandidates_perm resident inOrder paused).mem_iff, mem_strictOrder resident]
    simp

theorem visitedCandidates_eq :
    data.visitedCandidates now =
      if data.paused then [] else strictOrder definition data now := by
  rw [visitedCandidates, EligibilityIndex.strictCandidates_eq,
    take_of_length_le (length_filter_le ..), keys_eq_strictOrder resident inOrder.tracks now]

end

end Order

/-! ## Items -/

section Items

variable {data : ProjectionData Priority Value Typed} {compatibility : ClaimCompatibility}
  {id : ItemId} {record : ItemRecord Priority Value Typed}

theorem metadataMatches_iff (found : data.items[id]? = some record)
    {required : BTreeMap String Bytes} :
    data.metadataMatches id required = true ↔ ∀ (name : String) value,
      required[name]? = some value → record.metadata[name]? = some value := by
  rw [metadataMatches, found, Option.any_some, all_eq_true]
  constructor
  · intro all name value asked
    exact of_decide_eq_true (all (name, value) ((mem_toList_iff ..).mpr asked))
  · rintro all ⟨name, value⟩ member
    exact decide_eq_true (all name value ((mem_toList_iff ..).mp member))

/-- The test of an item claim. -/
def fits (data : ProjectionData Priority Value Typed) (compatibility : ClaimCompatibility)
    (id : ItemId) : Bool :=
  data.items[id]?.any fun item => item.cohortSize.isNone &&
    !(compatibility.groupKey.any fun required => item.groupKey != some required) &&
    data.metadataMatches id compatibility.metadataEquals

theorem fits_iff (found : data.items[id]? = some record) :
    data.fits compatibility id = true ↔ compatibility.Fits record := by
  rw [fits, found, Option.any_some, Bool.and_eq_true, Bool.and_eq_true,
    metadataMatches_iff found, Option.isNone_iff_eq_none]
  have group : (!(compatibility.groupKey.any fun required => record.groupKey != some required)) =
      true ↔ ∀ required, compatibility.groupKey = some required →
        record.groupKey = some required := by
    cases compatibility.groupKey <;> simp
  rw [group]
  exact ⟨fun ⟨⟨outside, group⟩, metadata⟩ => ⟨outside, group, metadata⟩,
    fun fits => ⟨⟨fits.outside, fits.group⟩, fits.metadata⟩⟩

/-- One visit: an item that fits is taken, and the visit goes on while there is room. -/
theorem visitItems_cons (found : data.items[id]? = some record) (max : Nat)
    (selected rest : List ItemId) :
    data.visitItems compatibility max selected (id :: rest) =
      if data.fits compatibility id then
        if selected.length + 1 < max then
          data.visitItems compatibility max (selected ++ [id]) rest
        else some (selected ++ [id])
      else data.visitItems compatibility max selected rest := by
  rw [visitItems, fits, found, Option.bind_eq_bind, Option.bind_some, Option.any_some,
    length_append, length_singleton]
  cases record.cohortSize with
  | some size => rfl
  | none =>
    cases compatibility.groupKey.any fun required => record.groupKey != some required with
    | true => rfl
    | false => cases data.metadataMatches id compatibility.metadataEquals <;> rfl

/-- The visit takes the first items that fit. -/
theorem visitItems_eq {max : Nat} (live : ∀ id ∈ ids, ∃ record, data.items[id]? = some record)
    (room : selected.length < max) :
    data.visitItems compatibility max selected ids =
      some (selected ++ (ids.filter (data.fits compatibility)).take (max - selected.length)) := by
  induction ids generalizing selected with
  | nil => simp [visitItems]
  | cons id rest ih =>
    rw [forall_mem_cons] at live
    obtain ⟨⟨record, found⟩, live⟩ := live
    rw [visitItems_cons found]
    split
    · next fit =>
      rw [filter_cons_of_pos fit]
      obtain ⟨left, width⟩ : ∃ left, max - selected.length = left + 1 :=
        ⟨max - selected.length - 1, by omega⟩
      rw [width, take_succ_cons]
      split
      · have longer : (selected ++ [id]).length = selected.length + 1 := by simp
        rw [ih live (by omega), longer, show max - (selected.length + 1) = left by omega]
        simp
      · rw [show left = 0 by omega, take_zero]
    · next unfit => rw [filter_cons_of_neg unfit, ih live room]

end Items

/-! ## Groups -/

section Groups

variable {data : ProjectionData Priority Value Typed} {compatibility : ClaimCompatibility}
  {id : ItemId} {record : ItemRecord Priority Value Typed}

/-- One step: an item that fits and is of the chosen group is taken. -/
theorem sameGroupFrom_cons {key : GroupKey} (found : data.items[id]? = some record)
    (grouped : record.groupKey = some key) (maxItems : Nat) (group : Option GroupKey)
    (selected rest : List ItemId) :
    data.sameGroupFrom compatibility maxItems group selected (id :: rest) =
      if data.fits compatibility id && !(group.any fun chosen => chosen != key) then
        if selected.length + 1 = maxItems then some (selected ++ [id])
        else data.sameGroupFrom compatibility maxItems (some key) (selected ++ [id]) rest
      else data.sameGroupFrom compatibility maxItems group selected rest := by
  have asked : (compatibility.groupKey.any fun required => record.groupKey != some required) =
      compatibility.groupKey.any fun required => required != key := by
    rw [grouped]
    cases compatibility.groupKey with
    | none => rfl
    | some required =>
      rw [Option.any_some, Option.any_some, Bool.eq_iff_iff, bne_iff_ne, bne_iff_ne]
      simp [eq_comm]
  rw [sameGroupFrom, fits, found, Option.bind_eq_bind, Option.bind_some, Option.any_some, asked,
    grouped, length_append, length_singleton]
  dsimp only
  cases record.cohortSize with
  | some size => rfl
  | none =>
    cases compatibility.groupKey.any fun required => required != key with
    | true => rfl
    | false =>
      cases data.metadataMatches id compatibility.metadataEquals with
      | false => rfl
      | true => cases group.any fun chosen => chosen != key <;> rfl

/-- What is selected fits, is of one group and stands in the order of the candidates. -/
theorem sameGroupFrom_spec (live : ∀ id ∈ ids, ∃ record, data.items[id]? = some record)
    (maxItems : Nat) (group : Option GroupKey) (selected : List ItemId) :
    ∃ more, data.sameGroupFrom compatibility maxItems group selected ids = some (selected ++ more) ∧
      more.Sublist ids ∧ (∀ id ∈ more, data.fits compatibility id = true) ∧
      ∃ key, (∀ chosen, group = some chosen → chosen = key) ∧
        ∀ id ∈ more, data.groupOf id = some key := by
  induction ids generalizing group selected with
  | nil =>
    refine ⟨[], by simp [sameGroupFrom], .slnil, by simp, group.getD "", ?_, by simp⟩
    rintro chosen rfl
    rfl
  | cons id rest ih =>
    rw [forall_mem_cons] at live
    obtain ⟨⟨record, found⟩, live⟩ := live
    have skip : ∀ {result}, data.sameGroupFrom compatibility maxItems group selected rest = result →
        ∃ more, result = some (selected ++ more) ∧ more.Sublist (id :: rest) ∧
          (∀ id ∈ more, data.fits compatibility id = true) ∧
          ∃ key, (∀ chosen, group = some chosen → chosen = key) ∧
            ∀ id ∈ more, data.groupOf id = some key := by
      rintro _ rfl
      obtain ⟨more, ran, inside, fit⟩ := ih live group selected
      exact ⟨more, ran, inside.cons _, fit⟩
    cases grouped : record.groupKey with
    | none =>
      have passed : data.sameGroupFrom compatibility maxItems group selected (id :: rest) =
          data.sameGroupFrom compatibility maxItems group selected rest := by
        rw [sameGroupFrom, found, Option.bind_eq_bind, Option.bind_some, grouped]
      exact skip passed.symm
    | some key =>
      have own : data.groupOf id = some key := by rw [groupOf, found, Option.bind_some, grouped]
      rw [sameGroupFrom_cons found grouped]
      split
      · next taken =>
        rw [Bool.and_eq_true] at taken
        have chosen : ∀ chosen, group = some chosen → chosen = key := by
          rintro chosen rfl
          simpa using taken.2
        split
        · refine ⟨[id], rfl, singleton_sublist.mpr mem_cons_self, ?_, key, chosen, ?_⟩
          · simpa using taken.1
          · simpa using own
        · obtain ⟨more, ran, inside, fit, other, same, groups⟩ := ih live (some key)
            (selected ++ [id])
          obtain rfl := same key rfl
          refine ⟨id :: more, ?_, inside.cons_cons id, ?_, key, chosen, ?_⟩
          · rw [ran, append_assoc, singleton_append]
          · exact forall_mem_cons.mpr ⟨taken.1, fit⟩
          · exact forall_mem_cons.mpr ⟨own, groups⟩
      · exact skip rfl

/-! ## Whole groups -/

/-- The group under which a candidate is collected, if it is. -/
def openGroupOf (data : ProjectionData Priority Value Typed) (compatibility : ClaimCompatibility)
    (id : ItemId) : Option GroupKey :=
  data.items[id]?.bind fun item => item.groupKey.bind fun key =>
    if item.cohortSize.isSome || !data.metadataMatches id compatibility.metadataEquals ||
        data.groupLeased key then none
    else some key

theorem collectGroups_eq (live : ∀ id ∈ ids, ∃ record, data.items[id]? = some record)
    (done : List ItemId) :
    data.collectGroups compatibility (grouped (data.openGroupOf compatibility) done) ids =
      some (grouped (data.openGroupOf compatibility) (done ++ ids)) := by
  induction ids generalizing done with
  | nil => rw [collectGroups, append_nil]
  | cons id rest ih =>
    rw [forall_mem_cons] at live
    obtain ⟨⟨record, found⟩, live⟩ := live
    have next := ih live (done ++ [id])
    rw [append_assoc, singleton_append] at next
    rw [← next]
    have own : data.openGroupOf compatibility id = record.groupKey.bind fun key =>
        if record.cohortSize.isSome || !data.metadataMatches id compatibility.metadataEquals ||
          data.groupLeased key then none else some key := by
      rw [openGroupOf, found, Option.bind_some]
    rw [collectGroups, found, Option.bind_eq_bind, Option.bind_some]
    cases key : record.groupKey with
    | none =>
      rw [key, Option.bind_none] at own
      rw [grouped_concat_none own]
    | some group =>
      rw [key, Option.bind_some] at own
      dsimp only
      cases outside : record.cohortSize.isSome ||
          !data.metadataMatches id compatibility.metadataEquals with
      | true =>
        rw [outside] at own
        rw [grouped_concat_none own]
        rfl
      | false =>
        rw [outside] at own
        cases leased : data.groupLeased group with
        | true =>
          rw [leased] at own
          rw [grouped_concat_none own]
          rfl
        | false =>
          rw [leased] at own
          rw [grouped_concat_some own]
          rfl

/-- Groups are taken from the front while they fit. -/
theorem takeGroups_ok {maxItems : Nat} {groups : List (GroupKey × List ItemId)}
    {result : List ItemId} (room : selected.length ≤ maxItems)
    (taken : takeGroups maxItems selected groups = .ok result) :
    result.length ≤ maxItems ∧
      ∃ count, count ≤ groups.length ∧
        result = selected ++ (groups.take count).flatMap Prod.snd := by
  induction groups generalizing selected with
  | nil =>
    cases taken
    exact ⟨room, 0, le_rfl, by simp⟩
  | cons group groups ih =>
    rw [takeGroups] at taken
    split at taken
    · cases taken
    · split at taken
      · cases taken
        exact ⟨room, 0, Nat.zero_le _, by simp⟩
      · obtain ⟨bound, count, inside, rfl⟩ := ih (by rw [length_append]; omega) taken
        refine ⟨bound, count + 1, Nat.succ_le_succ inside, ?_⟩
        rw [take_succ_cons, flatMap_cons, append_assoc]

end Groups

/-! ## Cohorts -/

section Cohorts

variable {definition : QueueDefinition Priority Value Typed}
  {data : ProjectionData Priority Value Typed} {compatibility : ClaimCompatibility}

/-- The live members of a cohort that are not terminal. -/
def members (data : ProjectionData Priority Value Typed) (group : GroupKey) :
    List (ItemRecord Priority Value Typed) :=
  data.cohortRecords.filter fun item => decide (item.groupKey = some group)

/-- The fold keeps the records of a group in the order it meets them. -/
theorem collected_getD (group : GroupKey) (records : List (ItemRecord Priority Value Typed)) :
    (records.foldl (fun cohorts item =>
      match item.groupKey with
      | none => cohorts
      | some group => cohorts.insert group (cohorts[group]?.getD [] ++ [item]))
      (∅ : BTreeMap GroupKey (List (ItemRecord Priority Value Typed))))[group]?.getD [] =
    records.filter fun item => decide (item.groupKey = some group) := by
  induction records using reverseRecOn with
  | nil => simp
  | append_singleton records item ih =>
    rw [foldl_concat, filter_append, ← ih]
    cases key : item.groupKey with
    | none => simp [key]
    | some own =>
      dsimp only
      by_cases same : own = group
      · subst same
        rw [get_insert_self]
        simp [key]
      · rw [get_insert_ne _ _ same]
        simp [key, same]

variable {found : List (ItemRecord Priority Value Typed)}

theorem cohorts_get (here : data.cohorts[group]? = some found) : found = data.members group := by
  have all : data.cohorts[group]?.getD [] = data.members group :=
    collected_getD group data.cohortRecords
  rwa [here, Option.getD_some] at all

/-- A complete cohort has its declared number of members, and all of them are eligible. -/
theorem completeCohort_some {eligible : List ItemId} {key : GroupKey} {seq : UInt64}
    {records : List (ItemRecord Priority Value Typed)}
    (complete : data.completeCohort compatibility eligible (group, records) =
      some (seq, key, found)) :
    key = group ∧ found.Perm records ∧ ∃ declared : UInt64, found.length = declared.toNat ∧
      ∀ item ∈ found, item.cohortSize = some declared ∧ item.itemId ∈ eligible := by
  simp only [completeCohort, Option.bind_eq_bind, Option.bind_eq_some_iff] at complete
  obtain ⟨first, _, declared, _, chosen⟩ := complete
  split at chosen
  · next whole =>
    simp only [Option.some.injEq, Prod.mk.injEq] at chosen
    obtain ⟨_, rfl, rfl⟩ := chosen
    rw [Bool.and_eq_true, decide_eq_true_eq, all_eq_true] at whole
    refine ⟨rfl, mergeSort_perm .., declared, whole.1, fun item member => ?_⟩
    have passed := whole.2 item member
    simp only [Bool.and_eq_true, decide_eq_true_eq, contains_iff_mem] at passed
    exact passed.1
  · cases chosen

structure WholeCohort (definition : QueueDefinition Priority Value Typed)
    (data : ProjectionData Priority Value Typed) (now : UtcTimestamp) (group : GroupKey)
    (itemIds : List ItemId) : Prop where
  all : itemIds.Perm ((data.members group).map ItemRecord.itemId)
  declared : ∀ item ∈ data.members group,
    item.cohortSize.map UInt64.toNat = some (data.members group).length
  eligible : ∀ id ∈ itemIds, id ∈ data.allCandidates definition now
  ordered : itemIds.Sublist (data.allCandidates definition now)

theorem selectWholeCohort_ok (resident : data.Resident definition)
    (inOrder : InOrder definition data) {now : UtcTimestamp} {maxItems : Nat}
    {selection : RichClaimSelection}
    (selected : data.selectWholeCohort definition compatibility now maxItems = .ok selection) :
    selection.itemIds = [] ∨ selection.itemIds.length ≤ maxItems ∧
      ∃ group, WholeCohort definition data now group selection.itemIds := by
  rw [selectWholeCohort] at selected
  split at selected
  · cases selected
    exact .inl rfl
  · next running =>
    dsimp only at selected
    split at selected
    · cases selected
      exact .inl rfl
    · next seq group found rest complete =>
      have chosen := mem_mergeSort.mp (complete ▸ mem_cons_self :
        (seq, group, found) ∈ (data.cohorts.toList.filterMap (data.completeCohort compatibility
          (data.allCandidates definition now))).mergeSort cohortLe)
      obtain ⟨⟨key, records⟩, member, whole⟩ := mem_filterMap.mp chosen
      have here := cohorts_get ((mem_toList_iff ..).mp member)
      obtain ⟨rfl, perm, declared, number, all⟩ := completeCohort_some whole
      rw [here] at perm
      split at selected
      · cases selected
      · next fits =>
        cases selected
        have distinct : ((data.members group).map ItemRecord.itemId).Nodup :=
          (itemIds_nodup resident).sublist ((filter_sublist.trans filter_sublist).map _)
        have candidates : (data.allCandidates definition now).Nodup :=
          (allCandidates_perm resident inOrder (by simpa using running)).nodup_iff.mpr
            (strictOrder_nodup resident now)
        have same : ((data.allCandidates definition now).filter
            (found.map ItemRecord.itemId).contains).Perm
            ((data.members group).map ItemRecord.itemId) := by
          refine (perm_ext_iff_of_nodup (candidates.sublist filter_sublist) distinct).mpr
            fun id => ?_
          rw [mem_filter, contains_iff_mem, (perm.map ItemRecord.itemId).mem_iff]
          refine ⟨fun both => both.2, fun inside => ⟨?_, inside⟩⟩
          obtain ⟨item, among, rfl⟩ := mem_map.mp inside
          exact (all item (perm.mem_iff.mpr among)).2
        refine .inr ⟨?_, group, same, fun item inside => ?_, fun id inside => ?_,
          filter_sublist⟩
        · rw [same.length_eq, length_map, ← perm.length_eq]
          omega
        · rw [(all item (perm.mem_iff.mpr inside)).1, Option.map_some, ← number, perm.length_eq]
        · exact mem_of_mem_filter inside

end Cohorts

/-! ## The claim units -/

/-- Suitable items, each group in the order of the candidates. -/
structure Selection (definition : QueueDefinition Priority Value Typed)
    (data : ProjectionData Priority Value Typed) (now : UtcTimestamp)
    (compatibility : ClaimCompatibility) (selected : List ItemId) : Prop where
  suitable : ∀ id ∈ selected, data.Suitable now compatibility id
  ordered : ∀ group, (selected.filter fun id => decide (data.groupOf id = group)).Sublist
    (data.allCandidates definition now)

/-- Whole groups one after another: each complete, in order of first appearance, and without a
leased live member outside of cohorts. -/
structure WholeGroups (definition : QueueDefinition Priority Value Typed)
    (data : ProjectionData Priority Value Typed) (now : UtcTimestamp)
    (compatibility : ClaimCompatibility) (groups : List GroupKey) (selected : List ItemId) :
    Prop where
  firsts : groups <+: ((data.allCandidates definition now).filterMap
    (data.openGroupOf compatibility)).eraseDups
  complete : ∀ group ∈ groups, ∀ id ∈ data.allCandidates definition now,
    data.Suitable now compatibility id → data.groupOf id = some group → id ∈ selected
  blocks : ∃ members : GroupKey → List ItemId, selected = groups.flatMap members ∧
    ∀ group ∈ groups, ∀ id ∈ members group, data.groupOf id = some group
  unleased : ∀ group ∈ groups, ∀ (id : ItemId) record, data.items[id]? = some record →
    record.groupKey = some group → record.cohortSize = none → record.superseded = false →
    record.state ≠ .leased

structure ClaimUnits (definition : QueueDefinition Priority Value Typed)
    (data : ProjectionData Priority Value Typed) (now : UtcTimestamp) : Prop where
  candidates : ∀ id, id ∈ data.allCandidates definition now ↔ data.paused = false ∧
    ∃ record, data.items[id]? = some record ∧ isEligible data.blockedGates record = true ∧
      record.dueAt now = true
  /-- A claim without a predicate is safe only where no claimable item belongs to a cohort. -/
  item : ∀ compatibility max, compatibility.groupKey.isSome = true ∨
      compatibility.metadataEquals.isEmpty = false ∨
      (∀ record ∈ claimable data now, record.cohortSize = none) →
    ∃ selected, data.selectItemClaim definition compatibility now max = some selected ∧
      selected.length ≤ max ∧ Selection definition data now compatibility selected
  sameGroup : ∀ compatibility maxItems, ∃ selected,
    data.selectSameGroup definition compatibility now maxItems = some selected ∧
      Selection definition data now compatibility selected ∧
      ∃ group, ∀ id ∈ selected, data.groupOf id = some group
  /-- A whole-group claim may not name a group. -/
  wholeGroup : ∀ compatibility maxItems, compatibility.groupKey = none → ∃ result,
    data.selectGroupBatching definition compatibility now maxItems = some result ∧
      ∀ selected, result = .ok selected → selected.length ≤ maxItems ∧
        Selection definition data now compatibility selected ∧ ∃ groups,
          groups.length ≤ (compatibility.groupBatching.map fun b => b.maxGroups.toNat).getD 0 ∧
          WholeGroups definition data now compatibility groups selected
  wholeCohort : ∀ compatibility maxItems selection,
    data.selectWholeCohort definition compatibility now maxItems = .ok selection →
      selection.itemIds = [] ∨ selection.itemIds.length ≤ maxItems ∧
        ∃ group, WholeCohort definition data now group selection.itemIds

section Units

variable {definition : QueueDefinition Priority Value Typed}
  {data : ProjectionData Priority Value Typed} {compatibility : ClaimCompatibility}
  {now : UtcTimestamp}

section

variable (resident : data.Resident definition) (inOrder : InOrder definition data)

include resident inOrder

theorem suitable_of_fits (candidate : id ∈ data.allCandidates definition now)
    (fit : data.fits compatibility id = true) : data.Suitable now compatibility id := by
  obtain ⟨_, record, found, eligible, due⟩ := (mem_allCandidates resident inOrder).mp candidate
  exact ⟨record, found, eligible, due, (fits_iff found).mp fit⟩

theorem candidates_live :
    ∀ id ∈ data.allCandidates definition now, ∃ record, data.items[id]? = some record := by
  intro id member
  obtain ⟨_, record, found, _⟩ := (mem_allCandidates resident inOrder).mp member
  exact ⟨record, found⟩

/-- What is taken in strict order is in the order of the candidates within each group. -/
theorem ordered_of_strict (running : data.paused = false)
    (strict : ∀ group, (selected.filter fun id => decide (data.groupOf id = group)).Sublist
      ((strictOrder definition data now).filter fun id => decide (data.groupOf id = group))) :
    ∀ group, (selected.filter fun id => decide (data.groupOf id = group)).Sublist
      (data.allCandidates definition now) := by
  intro group
  refine (strict group).trans ?_
  rw [← allCandidates_group resident inOrder running]
  exact filter_sublist

theorem selectItemClaim_ok (max : Nat)
    (safe : compatibility.groupKey.isSome = true ∨ compatibility.metadataEquals.isEmpty = false ∨
      ∀ record ∈ claimable data now, record.cohortSize = none) :
    ∃ selected, data.selectItemClaim definition compatibility now max = some selected ∧
      selected.length ≤ max ∧ Selection definition data now compatibility selected := by
  have empty : Selection definition data now compatibility [] := ⟨by simp, by simp⟩
  rw [selectItemClaim]
  split
  · exact ⟨[], rfl, Nat.zero_le _, empty⟩
  · next positive =>
    cases paused : data.paused with
    | true =>
      refine ⟨[], ?_, Nat.zero_le _, empty⟩
      rw [eligibleCandidates_eq, visitedCandidates_eq resident inOrder, paused]
      split
      · rfl
      · rfl
    | false =>
      split
      · next plain =>
        rw [Bool.and_eq_true] at plain
        have outside : ∀ record ∈ claimable data now, record.cohortSize = none := by
          rcases safe with group | metadata | outside
          · rw [Option.isNone_iff_eq_none.mp plain.1] at group
            cases group
          · rw [plain.2] at metadata
            cases metadata
          · exact outside
        have perm := candidates_perm resident inOrder paused now max
        refine ⟨_, rfl, ?_, fun id member => ?_,
          ordered_of_strict resident inOrder paused fun group => ?_⟩
        · exact perm.length_eq.trans_le (length_take_le ..)
        · obtain ⟨record, found, eligible, due⟩ := (mem_strictOrder resident).mp
            (mem_of_mem_take (perm.mem_iff.mp member))
          refine ⟨record, found, eligible, due,
            outside record (mem_claimable.mpr ⟨⟨id, found⟩, eligible, due⟩), ?_, ?_⟩
          · intro required asked
            rw [asked] at plain
            cases plain.1
          · intro name value asked
            rw [ExtTreeMap.isEmpty_iff.mp plain.2] at asked
            simp at asked
        · rw [candidates_group resident inOrder paused]
          exact (take_sublist ..).filter _
      · have live : ∀ id ∈ strictOrder definition data now,
            ∃ record, data.items[id]? = some record := fun id member =>
          ((mem_strictOrder resident).mp member).imp fun _ here => here.1
        refine ⟨((strictOrder definition data now).filter (data.fits compatibility)).take max, ?_,
          length_take_le .., fun id member => ?_,
          ordered_of_strict resident inOrder paused fun group => ?_⟩
        · rw [visitedCandidates_eq resident inOrder, paused]
          exact visitItems_eq live (Nat.pos_of_ne_zero positive)
        · obtain ⟨inside, fit⟩ := mem_filter.mp (mem_of_mem_take member)
          obtain ⟨record, found, eligible, due⟩ := (mem_strictOrder resident).mp inside
          exact ⟨record, found, eligible, due, (fits_iff found).mp fit⟩
        · exact ((take_sublist ..).trans filter_sublist).filter _

theorem selectSameGroup_ok (maxItems : Nat) :
    ∃ selected, data.selectSameGroup definition compatibility now maxItems = some selected ∧
      Selection definition data now compatibility selected ∧
      ∃ group, ∀ id ∈ selected, data.groupOf id = some group := by
  obtain ⟨selected, ran, inside, fit, group, -, groups⟩ :=
    sameGroupFrom_spec (candidates_live resident inOrder) maxItems none []
  refine ⟨selected, ran, ⟨fun id member => ?_, fun group => ?_⟩, group, groups⟩
  · exact suitable_of_fits resident inOrder (inside.subset member) (fit id member)
  · exact filter_sublist.trans inside

end

theorem openGroupOf_some (collected : data.openGroupOf compatibility id = some group) :
    ∃ record, data.items[id]? = some record ∧ record.groupKey = some group ∧
      record.cohortSize = none ∧
      data.metadataMatches id compatibility.metadataEquals = true ∧
      data.groupLeased group = false := by
  simp only [openGroupOf, Option.bind_eq_some_iff] at collected
  obtain ⟨record, found, key, grouped, chosen⟩ := collected
  split at chosen
  · cases chosen
  · next rest =>
    cases chosen
    simp only [Bool.or_eq_true, not_or, Bool.not_eq_true, Bool.not_eq_false',
      Option.isSome_eq_false_iff, Option.isNone_iff_eq_none] at rest
    exact ⟨record, found, grouped, rest.1.1, rest.1.2, rest.2⟩

theorem unleased_of_groupLeased (free : data.groupLeased group = false)
    {record : ItemRecord Priority Value Typed} (found : data.items[id]? = some record)
    (grouped : record.groupKey = some group) (outside : record.cohortSize = none)
    (live : record.superseded = false) : record.state ≠ .leased := by
  intro leased
  have here : (id, record) ∈ data.items.toList := (mem_toList_iff ..).mpr found
  rw [groupLeased, any_eq_false] at free
  have refuted := free record (mem_map.mpr ⟨_, here, rfl⟩)
  simp [grouped, outside, live, leased] at refuted

/-- Groups of candidates, taken whole from the front. -/
theorem wholeGroups_taken (resident : data.Resident definition) (inOrder : InOrder definition data)
    (unnamed : compatibility.groupKey = none) {n : Nat} {groups : List GroupKey}
    (front : groups = (((data.allCandidates definition now).filterMap
      (data.openGroupOf compatibility)).eraseDups).take n)
    (taken : selected = groups.flatMap fun group => (data.allCandidates definition now).filter
      fun id => decide (data.openGroupOf compatibility id = some group)) :
    Selection definition data now compatibility selected ∧
      WholeGroups definition data now compatibility groups selected := by
  have member : ∀ id, id ∈ selected ↔ ∃ group ∈ groups, id ∈ data.allCandidates definition now ∧
      data.openGroupOf compatibility id = some group := by
    intro id
    simp only [taken, mem_flatMap, mem_filter, decide_eq_true_eq]
  have free : ∀ group ∈ groups, data.groupLeased group = false := by
    intro group inside
    rw [front] at inside
    obtain ⟨id, -, collected⟩ := mem_filterMap.mp
      (mem_eraseDups.mp (mem_of_mem_take inside))
    obtain ⟨_, _, _, _, _, free⟩ := openGroupOf_some collected
    exact free
  have grouped : ∀ {id group}, data.openGroupOf compatibility id = some group →
      data.groupOf id = some group := by
    intro id group collected
    obtain ⟨record, found, key, -⟩ := openGroupOf_some collected
    rw [groupOf, found, Option.bind_some, key]
  have suitable : ∀ id ∈ selected, data.Suitable now compatibility id := by
    intro id inside
    obtain ⟨group, -, candidate, collected⟩ := (member id).mp inside
    obtain ⟨record, found, key, outside, metadata, -⟩ := openGroupOf_some collected
    obtain ⟨_, _, found', eligible, due⟩ := (mem_allCandidates resident inOrder).mp candidate
    rw [found] at found'
    cases found'
    refine ⟨record, found, eligible, due, outside, fun required asked => ?_,
      (metadataMatches_iff found).mp metadata⟩
    rw [unnamed] at asked
    cases asked
  refine ⟨⟨suitable, fun group => ?_⟩, ?_, ?_, ?_, ?_⟩
  · have distinct : groups.Nodup := by
      rw [front]
      exact (nodup_eraseDups _).sublist (take_sublist ..)
    cases group with
    | none =>
      have none : selected.filter (fun id => decide (data.groupOf id = none)) = [] := by
        rw [filter_eq_nil_iff]
        intro id inside
        obtain ⟨group, -, -, collected⟩ := (member id).mp inside
        simp [grouped collected]
      rw [none]
      exact nil_sublist _
    | some group =>
      rw [taken, filter_flatMap]
      refine Sublist.trans (flatMap_sublist_of_single (k := group) distinct
        fun other _ different => ?_) ?_
      · rw [filter_eq_nil_iff]
        intro id inside
        obtain ⟨-, collected⟩ := mem_filter.mp inside
        rw [grouped (of_decide_eq_true collected)]
        simp [different]
      · exact filter_sublist.trans filter_sublist
  · rw [front]
    exact take_prefix ..
  · rintro group inside id candidate ⟨record, found, -, -, fits⟩ own
    refine (member id).mpr ⟨group, inside, candidate, ?_⟩
    rw [groupOf, found, Option.bind_some] at own
    rw [openGroupOf, found, Option.bind_some, own, Option.bind_some, fits.outside,
      (metadataMatches_iff found).mpr fits.metadata, free group inside]
    rfl
  · refine ⟨_, taken, fun group _ id inside => grouped ?_⟩
    exact of_decide_eq_true (mem_filter.mp inside).2
  · intro group inside id record found key outside live
    exact unleased_of_groupLeased (free group inside) found key outside live

theorem selectGroupBatching_ok (resident : data.Resident definition)
    (inOrder : InOrder definition data) (maxItems : Nat) (unnamed : compatibility.groupKey = none) :
    ∃ result, data.selectGroupBatching definition compatibility now maxItems = some result ∧
      ∀ selected, result = .ok selected → selected.length ≤ maxItems ∧
        Selection definition data now compatibility selected ∧ ∃ groups,
          groups.length ≤ (compatibility.groupBatching.map fun b => b.maxGroups.toNat).getD 0 ∧
          WholeGroups definition data now compatibility groups selected := by
  generalize number :
    (compatibility.groupBatching.map fun b => b.maxGroups.toNat).getD 0 = maxGroups
  rw [selectGroupBatching, number]
  split
  · refine ⟨.ok [], rfl, fun selected same => ?_⟩
    cases same
    exact ⟨Nat.zero_le _, ⟨by simp, by simp⟩, [], Nat.zero_le _, nil_prefix, by simp, by simp,
      by simp⟩
  · have collected : data.collectGroups compatibility [] (data.allCandidates definition now) =
        some (grouped (data.openGroupOf compatibility) (data.allCandidates definition now)) :=
      collectGroups_eq (candidates_live resident inOrder) []
    rw [collected]
    refine ⟨_, rfl, fun selected ran => ?_⟩
    obtain ⟨bound, count, -, chosen⟩ := takeGroups_ok (Nat.zero_le _) ran
    rw [nil_append, take_take, grouped, ← map_take, flatMap_map] at chosen
    obtain ⟨selection, whole⟩ := wholeGroups_taken resident inOrder unnamed rfl chosen
    refine ⟨bound, selection, _, ?_, whole⟩
    exact (length_take_le ..).trans (Nat.min_le_right ..)

theorem InOrder.claimUnits (inOrder : InOrder definition data)
    (resident : data.Resident definition) (now : UtcTimestamp) :
    ClaimUnits definition data now where
  candidates _ := mem_allCandidates resident inOrder
  item _ max safe := selectItemClaim_ok resident inOrder max safe
  sameGroup _ maxItems := selectSameGroup_ok resident inOrder maxItems
  wholeGroup _ maxItems unnamed := selectGroupBatching_ok resident inOrder maxItems unnamed
  wholeCohort _ _ _ selected := selectWholeCohort_ok resident inOrder selected

end Units

end ProjectionData

section Runs

variable [DecidableEq Priority] [DecidableEq Value]
  {definition : QueueDefinition Priority Value Typed}
  {data : ProjectionData Priority Value Typed}

/-- Claim units split no cohort and no group in any reachable state, if every document path has one
type; an item claim needs a predicate or a queue without claimable cohort members. -/
theorem reaches_claimUnits (oneType : definition.OneTypePerPath)
    {actions : List (Stamp × Action Priority Value Typed)}
    (run : Reaches definition actions data) (now : UtcTimestamp) :
    data.ClaimUnits definition now := by
  obtain ⟨resident, inOrder⟩ := reaches_invariant oneType (ProjectionData.inOrder_new definition)
    (fun _ _ _ _ resident inOrder _ effect => effect.inOrder resident inOrder) run
  exact inOrder.claimUnits resident now

end Runs

def cohortMember (id : ItemId) : PushItem Unit FlatJson String :=
  { flatItem id.render id none with groupKey := some "g", cohortSize := some 2 }

def groupMember (id : ItemId) : PushItem Unit FlatJson String :=
  { flatItem id.render id none with groupKey := some "h" }

/-- An item claim that asks for nothing takes one member of a cohort of two. -/
theorem item_claim_splits_cohort :
    ∃ data, Reaches (flatDefinition [])
        [(⟨none, none⟩, .push [cohortMember 1, cohortMember 2])] data ∧
      data.selectItemClaim (flatDefinition []) ⟨none, ∅, none⟩ epoch 1 = some [1] ∧
      data.items[(1 : ItemId)]?.bind ItemRecord.cohortSize = some 2 := by
  have computed : (runAll (perform (flatDefinition [])) (.new (flatDefinition []))
      [(⟨none, none⟩, .push [cohortMember 1, cohortMember 2])]).map (fun data =>
        (data.selectItemClaim (flatDefinition []) ⟨none, ∅, none⟩ epoch 1,
          data.items[(1 : ItemId)]?.bind ItemRecord.cohortSize)) = some (some [1], some 2) := by
    decide +kernel
  obtain ⟨data, performed, observed⟩ := Option.map_eq_some_iff.mp computed
  simp only [Prod.mk.injEq] at observed
  exact ⟨data, runAll_run (perform_step _) performed, observed⟩

theorem reaches_claimUnits_mixed :
    (flatDefinition []).OneTypePerPath ∧ ∃ data,
      Reaches (flatDefinition [])
        [(⟨none, none⟩, .push [cohortMember 1, groupMember 3, cohortMember 2, groupMember 4])]
        data ∧
      data.selectItemClaim (flatDefinition []) ⟨some "h", ∅, none⟩ epoch 5 = some [3, 4] ∧
      data.selectSameGroup (flatDefinition []) ⟨none, ∅, none⟩ epoch 1 = some [3] ∧
      data.selectGroupBatching (flatDefinition []) ⟨none, ∅, some ⟨1⟩⟩ epoch 2 =
        some (.ok [3, 4]) ∧
      data.ClaimUnits (flatDefinition []) epoch := by
  have oneType : (flatDefinition []).OneTypePerPath := by
    simp [QueueDefinition.OneTypePerPath, Documents.OneType, Documents.declaredIndexFieldPaths,
      flatDefinition]
  have computed : (runAll (perform (flatDefinition [])) (.new (flatDefinition []))
      [(⟨none, none⟩, .push [cohortMember 1, groupMember 3, cohortMember 2, groupMember 4])]).map
      (fun data => (data.selectItemClaim (flatDefinition []) ⟨some "h", ∅, none⟩ epoch 5,
        data.selectSameGroup (flatDefinition []) ⟨none, ∅, none⟩ epoch 1,
        (data.selectGroupBatching (flatDefinition []) ⟨none, ∅, some ⟨1⟩⟩ epoch 2).map
          Except.toOption)) =
      some (some [3, 4], some [3], some (some [3, 4])) := by
    decide +kernel
  obtain ⟨data, performed, observed⟩ := Option.map_eq_some_iff.mp computed
  simp only [Prod.mk.injEq, Option.map_eq_some_iff, toOption_eq_some] at observed
  obtain ⟨items, sameGroup, result, batched, rfl⟩ := observed
  have run := runAll_run (perform_step _) performed
  exact ⟨oneType, data, run, items, sameGroup, batched, reaches_claimUnits oneType run epoch⟩

end Projection
