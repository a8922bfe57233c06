import Fireweed.Projection.Admitted

/-!
# Claim order over whole runs

The eligibility index holds exactly the keys of the eligible records after every
admitted command, whichever arm of the interpreter edited it. Gate changes need
one more fact: the members recorded under a gate include every live item that
carries it.
-/

namespace Projection

open BTree Checked Domain List Runs Scripts Std EligibilityIndex

variable {Priority Value Typed : Type}

namespace ProjectionData

/-- The eligibility index is exact, and no live item is missing under its gates. -/
structure InOrder (definition : QueueDefinition Priority Value Typed)
    (data : ProjectionData Priority Value Typed) : Prop where
  tracks : Tracks definition.prioritySort data.items (isEligible data.blockedGates) data.eligible
  gated : ∀ (id : ItemId) record, data.items[id]? = some record → record.superseded = false →
    ∀ key ∈ record.gateKeys, data.gateMembers.Has key id

section Gates

variable {members : Buckets String ItemId} {id a : ItemId} {old new : List String} {key : String}

theorem has_replaceGateMemberships :
    (replaceGateMemberships members id old new).Has key a ↔
      (members.Has key a ∧ ¬(key ∈ old ∧ key ∉ new ∧ a = id)) ∨
        (key ∈ new ∧ key ∉ old ∧ a = id) := by
  simp only [replaceGateMemberships, Buckets.has_foldl_add, Buckets.has_foldl_drop,
    mem_filter, Bool.not_eq_true', contains_eq_mem, decide_eq_false_iff_not]
  tauto

/-- Other items keep their memberships. -/
theorem has_replaceGateMemberships_of_ne (different : id ≠ a) (held : members.Has key a) :
    (replaceGateMemberships members id old new).Has key a :=
  has_replaceGateMemberships.mpr (.inl ⟨held, fun dropped => different dropped.2.2.symm⟩)

/-- The item is a member under its new gates. -/
theorem has_replaceGateMemberships_self (held : ∀ key ∈ old, members.Has key id)
    (member : key ∈ new) : (replaceGateMemberships members id old new).Has key id := by
  by_cases before : key ∈ old
  · exact has_replaceGateMemberships.mpr (.inl ⟨held key before, fun dropped => dropped.2.1 member⟩)
  · exact has_replaceGateMemberships.mpr (.inr ⟨member, before, rfl⟩)

end Gates

section Keeping

variable {definition : QueueDefinition Priority Value Typed} {stamp : Stamp}
  {data next : ProjectionData Priority Value Typed} {id : ItemId}
  {old new : ItemRecord Priority Value Typed}

theorem inOrder_new (definition : QueueDefinition Priority Value Typed) :
    InOrder definition (.new definition) where
  tracks key := by
    simp [ProjectionData.new, EligibilityIndex.new, EligibilityIndex.keys]
  gated id record found := by simp [ProjectionData.new] at found

/-- Replacing a record and its key. -/
theorem tracks_rekeyed
    (tracks : Tracks definition.prioritySort data.items (isEligible data.blockedGates)
      data.eligible)
    (found : data.items[id]? = some old) (own : old.itemId = id) (own' : new.itemId = id) :
    Tracks definition.prioritySort (data.items.insert id new) (isEligible data.blockedGates)
      (data.rekeyed definition data.eligible old new) := by
  have others : ∀ a : ItemId, a ≠ id → (data.items.insert id new)[a]? = data.items[a]? :=
    fun a different => get_insert_ne _ _ different.symm
  have before : TracksExcept definition.prioritySort data.items (isEligible data.blockedGates) id
      (if isEligible data.blockedGates old then
        data.eligible.remove (token definition.prioritySort old)
      else data.eligible) := by
    split
    · exact tracks.remove found own
    · next ineligible =>
      exact tracks.except_of_ineligible (of_get found (by simpa using ineligible))
  have except : TracksExcept definition.prioritySort (data.items.insert id new)
      (isEligible data.blockedGates) id _ := before.congr others fun _ _ _ _ => rfl
  rw [rekeyed]
  split
  · next eligible =>
    rw [own']
    exact except.insert (fun _ _ => rfl) (get_insert_self ..) own' eligible
  · next ineligible =>
    exact except.done (of_get_insert (by simpa using ineligible))

variable {index : EligibilityIndex} {update : UpdateFieldsCommand Priority Value}
  {gates : BTreeSet String} {gateKeys : List String} {entry : ItemId × Bool} {done : List ItemId}

/-- Rewriting a record that keeps its key and its eligibility. -/
theorem tracks_rewritten {blockedGates : BTreeSet String}
    (tracks : Tracks definition.prioritySort data.items (isEligible blockedGates) index)
    (found : data.items[id]? = some old)
    (key : eligKey definition.prioritySort new = eligKey definition.prioritySort old)
    (eligible : isEligible blockedGates new = isEligible blockedGates old) :
    Tracks definition.prioritySort (data.items.insert id new) (isEligible blockedGates) index := by
  refine tracks.congr fun a => ?_
  rw [get_insert]
  split
  · next same =>
    rw [← same, found, Option.filter_some, Option.filter_some, eligible]
    split
    · rw [Option.map_some, Option.map_some, key]
    · rfl
  · rfl

/-- Taking a record out of the index and of the eligible ones. -/
theorem tracks_cleared {items : BTreeMap ItemId (ItemRecord Priority Value Typed)}
    (tracks : Tracks definition.prioritySort data.items (isEligible data.blockedGates)
      data.eligible)
    (found : data.items[id]? = some old) (own : old.itemId = id)
    (others : ∀ a : ItemId, a ≠ id → items[a]? = data.items[a]?)
    (ineligible : ∀ record, items[id]? = some record → isEligible data.blockedGates record =
      false) :
    Tracks definition.prioritySort items (isEligible data.blockedGates)
      (if old.state = .pending then
        data.eligible.remove (token definition.prioritySort old)
      else data.eligible) := by
  have before : TracksExcept definition.prioritySort data.items (isEligible data.blockedGates) id
      (if old.state = .pending then
        data.eligible.remove (token definition.prioritySort old)
      else data.eligible) := by
    split
    · exact tracks.remove found own
    · next other =>
      exact tracks.except_of_ineligible (of_get found (by simp [isEligible, other]))
  exact (before.congr others fun _ _ _ _ => rfl).done ineligible

section

variable (inOrder : InOrder definition data)

include inOrder

/-- One record is rewritten: the others keep their gates. -/
theorem gated_put (items : next.items = data.items.insert id new)
    (others : ∀ (a : ItemId) key, id ≠ a → data.gateMembers.Has key a → next.gateMembers.Has key a)
    (own : new.superseded = false → ∀ key ∈ new.gateKeys, next.gateMembers.Has key id) :
    ∀ (a : ItemId) record, next.items[a]? = some record → record.superseded = false →
      ∀ key ∈ record.gateKeys, next.gateMembers.Has key a := by
  intro a record found live key member
  rw [items, get_insert] at found
  split at found
  · next same =>
    cases found
    exact same ▸ own live key member
  · next different => exact others a key different (inOrder.gated a record found live key member)

/-- A record is rewritten without a change to its order, its eligibility and its gates. -/
theorem InOrder.rewrite (found : data.items[id]? = some old)
    (items : next.items = data.items.insert id new) (eligible : next.eligible = data.eligible)
    (blockedGates : next.blockedGates = data.blockedGates)
    (gateMembers : next.gateMembers = data.gateMembers)
    (key : eligKey definition.prioritySort new = eligKey definition.prioritySort old)
    (state : new.state = old.state) (superseded : new.superseded = old.superseded)
    (gateKeys : new.gateKeys = old.gateKeys) : InOrder definition next where
  tracks := by
    rw [items, eligible, blockedGates]
    exact tracks_rewritten inOrder.tracks found key (by
      rw [isEligible, isEligible, state, superseded, gateKeys])
  gated := by
    refine gated_put inOrder items (fun a key _ held => by rwa [gateMembers]) ?_
    rw [gateMembers, superseded, gateKeys]
    exact inOrder.gated id old found

theorem InOrder.afterTransition (resident : Resident definition data)
    (found : data.items[id]? = some old) (state : ItemState) :
    InOrder definition (data.afterTransition definition stamp id old state) where
  tracks := by
    have own := resident.keyed id old found
    exact tracks_rekeyed inOrder.tracks found own own
  gated := gated_put inOrder rfl (fun _ _ _ held => held) (inOrder.gated id old found)

theorem InOrder.afterInsert {item : PushItem Priority Value Typed}
    (fresh : data.items[item.itemId]? = none) :
    InOrder definition (data.afterInsert definition stamp item) where
  tracks := by
    have except : TracksExcept definition.prioritySort
        (data.items.insert item.itemId (data.pendingRecord stamp item))
        (isEligible data.blockedGates) item.itemId data.eligible := by
      refine (inOrder.tracks.except_of_ineligible fun record here => ?_).congr
        (fun a different => get_insert_ne _ _ different.symm) fun _ _ _ _ => rfl
      rw [fresh] at here
      cases here
    have eligible : isEligible data.blockedGates (data.pendingRecord stamp item) =
        !gateKeysBlocked data.blockedGates (data.pendingRecord stamp item).gateKeys := by
      simp [isEligible, pendingRecord]
    dsimp only [ProjectionData.afterInsert, entered, entering]
    split
    · next blocked =>
      refine except.done (of_get_insert ?_)
      rw [eligible, blocked]
      rfl
    · next open_ =>
      refine except.insert (fun a different => (get_insert_ne _ _ different.symm).symm)
        (get_insert_self ..) rfl ?_
      rw [eligible]
      simpa using open_
  gated := by
    refine gated_put inOrder rfl (fun a key _ held => ?_) fun _ key member => ?_
    · exact (Buckets.has_foldl_add ..).mpr (.inr held)
    · exact (Buckets.has_foldl_add ..).mpr (.inl ⟨member, rfl⟩)

end

/-- The key of a record whose priority, schedule and gates an update leaves alone. -/
theorem updatedRecord_order (sort : Priority → Bytes) (stamp : Stamp)
    (unchanged : (update.setPriority.isSet ||
      update.setNotBefore.isSet || update.setGateKeys.isSome) = false)
    (record : ItemRecord Priority Value Typed) (indexFields : IndexFields Typed) :
    eligKey sort (updatedRecord stamp update record indexFields) = eligKey sort record ∧
      (updatedRecord stamp update record indexFields).gateKeys = record.gateKeys := by
  simp only [Bool.or_eq_false_iff] at unchanged
  obtain ⟨⟨priority, notBefore⟩, gateKeys⟩ := unchanged
  cases setPriority : update.setPriority with
  | set value => simp [setPriority, ScheduleUpdate.isSet] at priority
  | keep =>
    cases setNotBefore : update.setNotBefore with
    | set value => simp [setNotBefore, ScheduleUpdate.isSet] at notBefore
    | keep =>
      have none : update.setGateKeys = none := by simpa using gateKeys
      simp [eligKey, updatedRecord, setPriority, setNotBefore, none, ScheduleUpdate.apply]

section

variable (inOrder : InOrder definition data) (resident : Resident definition data)

include inOrder resident

theorem InOrder.afterUpdate {indexFields : IndexFields Typed} {oldKeys newKeys : List IndexKey}
    (found : data.items[update.itemId]? = some old) (live : old.superseded = false) :
    InOrder definition (data.afterUpdate definition update old
      (updatedRecord stamp update old indexFields) oldKeys newKeys) where
  tracks := by
    have own := resident.keyed _ old found
    dsimp only [ProjectionData.afterUpdate]
    split
    · exact tracks_rekeyed inOrder.tracks found own own
    · next unchanged =>
      obtain ⟨key, gateKeys⟩ := updatedRecord_order definition.prioritySort stamp
        (by simpa using unchanged) old indexFields
      refine tracks_rewritten inOrder.tracks found key ?_
      rw [isEligible, isEligible, gateKeys]
      rfl
  gated := by
    refine gated_put inOrder rfl
      (fun a key different held => has_replaceGateMemberships_of_ne different held) ?_
    exact fun _ key member =>
      has_replaceGateMemberships_self (inOrder.gated _ old found live) member

theorem InOrder.afterReplace {values : ResolvedItemValues Priority Value Typed}
    {keepsPayload : Bool} (found : data.items[id]? = some old) :
    InOrder definition (data.afterReplace definition id values old
      (mutatedRecord stamp keepsPayload old values)) where
  tracks := by
    have own := resident.keyed id old found
    exact tracks_rekeyed inOrder.tracks found own own
  gated := by
    refine gated_put inOrder rfl
      (fun a key different held => has_replaceGateMemberships_of_ne different held) ?_
    exact fun live key member =>
      has_replaceGateMemberships_self (inOrder.gated id old found live) member

/-- A record leaves the eligible ones, with its memberships or without. -/
theorem InOrder.cleared (found : data.items[id]? = some old)
    (items : next.items = data.items.insert id new)
    (eligible : next.eligible = if old.state = .pending then
      data.eligible.remove (token definition.prioritySort old) else data.eligible)
    (blockedGates : next.blockedGates = data.blockedGates)
    (ineligible : isEligible data.blockedGates new = false)
    (others : ∀ (a : ItemId) key, id ≠ a → data.gateMembers.Has key a → next.gateMembers.Has key a)
    (own : new.superseded = false → ∀ key ∈ new.gateKeys, next.gateMembers.Has key id) :
    InOrder definition next where
  tracks := by
    rw [items, eligible, blockedGates]
    exact tracks_cleared inOrder.tracks found (resident.keyed id old found)
      (fun a different => get_insert_ne _ _ different.symm) (of_get_insert ineligible)
  gated := gated_put inOrder items others own

theorem InOrder.afterPurge (found : data.items[id]? = some old) :
      InOrder definition (data.afterPurge definition id old) where
  tracks := by
    dsimp only [ProjectionData.afterPurge, withoutRecord]
    exact tracks_cleared inOrder.tracks found (resident.keyed id old found)
      (fun a different => get_erase_ne _ different.symm) of_get_erase
  gated a record here live key member := by
    dsimp only [ProjectionData.afterPurge, withoutRecord] at here
    rw [get_erase] at here
    split at here
    · cases here
    · next different =>
      exact has_replaceGateMemberships_of_ne different (inOrder.gated a record here live key member)

end

theorem InOrder.afterFinalize (inOrder : InOrder definition data) (own : old.itemId = id)
    (found : data.items[id]? = some old) (live : old.superseded = false)
    (own' : new.itemId = id) (state : new.state = old.state)
    (superseded : new.superseded = old.superseded) (gateKeys : new.gateKeys = old.gateKeys) :
    InOrder definition (data.afterFinalize definition id old new) where
  tracks := by
    have eligible : isEligible data.blockedGates new = isEligible data.blockedGates old := by
      rw [isEligible, isEligible, state, superseded, gateKeys]
    have pending : isEligible data.blockedGates old = true ↔
        old.state = .pending ∧ gateKeysBlocked data.blockedGates old.gateKeys = false := by
      simp [isEligible, live]
    dsimp only [ProjectionData.afterFinalize]
    split
    · next moves =>
      have good := pending.mpr ⟨moves.1, moves.2.1⟩
      have rekeyed := tracks_rekeyed inOrder.tracks found own own'
      rw [ProjectionData.rekeyed, if_pos good, eligible, if_pos good, own'] at rekeyed
      exact rekeyed
    · next stays =>
      by_cases good : isEligible data.blockedGates old = true
      · refine tracks_rewritten inOrder.tracks found ?_ eligible
        obtain ⟨isPending, isOpen⟩ := pending.mp good
        have same : token definition.prioritySort old =
            token definition.prioritySort new := by
          by_contra different
          exact stays ⟨isPending, isOpen, different⟩
        exact (token_inj _ same).symm
      · have rekeyed := tracks_rekeyed inOrder.tracks found own own'
        rw [ProjectionData.rekeyed, if_neg good, eligible, if_neg good] at rekeyed
        exact rekeyed
  gated := by
    refine gated_put inOrder rfl (fun _ _ _ held => held) ?_
    rw [superseded, gateKeys]
    exact inOrder.gated id old found

/-! ### Gate changes -/

/-- The gates after a change. -/
theorem contains_foldl_gates (keys : List String) (blocked : Bool) (gates : BTreeSet String)
    {key : String} (other : key ∉ keys) :
    (keys.foldl (fun gates key => if blocked then gates.insert key else gates.erase key)
      gates).contains key = gates.contains key := by
  induction keys generalizing gates with
  | nil => rfl
  | cons first rest ih =>
    obtain ⟨different, later⟩ := not_or.mp (mt mem_cons.mpr other)
    rw [foldl_cons, ih _ later]
    split
    · simp [ExtTreeSet.contains_insert, Ne.symm different]
    · simp [ExtTreeSet.contains_erase, Ne.symm different]

/-- Only the gates that change can change whether a record is blocked. -/
theorem gateKeysBlocked_of_disjoint {change : GateChange}
    (disjoint : ∀ key ∈ gateKeys, key ∉ change.gateKeys) :
    gateKeysBlocked (change.applyTo gates) gateKeys = gateKeysBlocked gates gateKeys := by
  rw [gateKeysBlocked, gateKeysBlocked, GateChange.applyTo]
  refine Bool.eq_iff_iff.mpr ?_
  simp only [any_eq_true]
  refine exists_congr fun key => and_congr_right fun member => ?_
  rw [contains_foldl_gates _ _ _ (disjoint key member)]

/-- The entries of a gate change: pending live items, each with whether it was blocked. -/
theorem mem_gateAffected :
    entry ∈ data.gateAffected gateKeys ↔
      ∃ record, data.items[entry.1]? = some record ∧ record.state = .pending ∧
        record.superseded = false ∧ (∃ key ∈ gateKeys, data.gateMembers.Has key entry.1) ∧
        entry.2 = gateKeysBlocked data.blockedGates record.gateKeys := by
  rw [gateAffected, mem_filterMap]
  simp only [ExtTreeSet.mem_toList, mem_setOfList, mem_flatMap]
  constructor
  · rintro ⟨id, ⟨key, member, held⟩, chosen⟩
    split at chosen
    · next record found =>
      split at chosen
      · next good =>
        cases chosen
        exact ⟨record, found, good.1, good.2, ⟨key, member, held⟩, rfl⟩
      · cases chosen
    · cases chosen
  · rintro ⟨record, found, pending, live, ⟨key, member, held⟩, was⟩
    refine ⟨entry.1, ⟨key, member, held⟩, ?_⟩
    simp only [found, pending, live, and_self, if_true, ← was]

/-- A selection that keeps the names of what it selects does not repeat one. -/
theorem nodup_map_filterMap {α β : Type} {f : α → Option (α × β)}
    (keeps : ∀ a entry, f a = some entry → entry.1 = a) {names : List α} (distinct : names.Nodup) :
    ((names.filterMap f).map Prod.fst).Nodup := by
  rw [map_filterMap]
  refine distinct.filterMap fun a b name left right => ?_
  obtain ⟨entry, chosen, rfl⟩ := Option.map_eq_some_iff.mp left
  obtain ⟨other, chosen', same⟩ := Option.map_eq_some_iff.mp right
  rw [← keeps a entry chosen, ← same, keeps b other chosen']

theorem gateAffected_nodup (gateKeys : List String) :
    ((data.gateAffected gateKeys).map Prod.fst).Nodup := by
  refine nodup_map_filterMap (fun id entry chosen => ?_)
    (ExtTreeSet.distinct_toList.imp fun different equal => different (by simp [equal]))
  split at chosen
  · split at chosen
    · cases chosen
      rfl
    · cases chosen
  · cases chosen

/-- One item of a gate change. The items before it are judged by the new gates. -/
theorem tracks_regate (resident : Resident definition data)
    (found : data.items[entry.1]? = some old) (pending : old.state = .pending)
    (live : old.superseded = false) (was : entry.2 = gateKeysBlocked data.blockedGates old.gateKeys)
    (later : entry.1 ∉ done) (tracks : Tracks definition.prioritySort data.items (fun record =>
      isEligible (if record.itemId ∈ done then gates else data.blockedGates) record) index) :
    Tracks definition.prioritySort data.items (fun record =>
      isEligible (if record.itemId ∈ entry.1 :: done then gates else data.blockedGates) record)
      (data.regate definition gates index entry) := by
  have own := resident.keyed _ old found
  have before : isEligible (if old.itemId ∈ done then gates else data.blockedGates) old =
      !entry.2 := by
    rw [own, if_neg later, was]
    simp [isEligible, pending, live]
  have after : isEligible (if old.itemId ∈ entry.1 :: done then gates else data.blockedGates) old =
      !gateKeysBlocked gates old.gateKeys := by
    rw [own, if_pos mem_cons_self]
    simp [isEligible, pending, live]
  have only : ∀ record, data.items[entry.1]? = some record → record = old := by
    intro record here
    rw [found] at here
    exact (Option.some.inj here).symm
  have agree : ∀ (a : ItemId) record, a ≠ entry.1 → data.items[a]? = some record →
      isEligible (if record.itemId ∈ entry.1 :: done then gates else data.blockedGates) record =
        isEligible (if record.itemId ∈ done then gates else data.blockedGates) record := by
    intro a record different here
    rw [resident.keyed a record here]
    simp only [mem_cons, different, false_or]
  -- An item whose blocking does not change keeps its place.
  have quiet : entry.2 = gateKeysBlocked gates old.gateKeys →
    Tracks definition.prioritySort data.items
      (fun record => isEligible (if record.itemId ∈ entry.1 :: done then gates
        else data.blockedGates) record) index := by
    intro unchanged
    refine tracks.agree fun a record here => ?_
    by_cases item : a = entry.1
    · subst item
      rw [only record here, before, after, unchanged]
    · exact agree a record item here
  simp only [regate, found]
  split
  · next open_ blocked =>
    refine ((tracks.remove found own).congr (fun _ _ => rfl) agree).done fun record here => ?_
    rw [only record here, after, blocked]
    rfl
  · next blocked open_ =>
    refine ((tracks.except_of_ineligible fun record here => ?_).congr (fun _ _ => rfl)
      agree).insert (fun _ _ => rfl) found own (by rw [after, open_]; rfl)
    rw [only record here, before, blocked]
    rfl
  · next opens closes =>
    refine quiet ?_
    cases blockedBefore : entry.2 <;> cases blockedAfter : gateKeysBlocked gates old.gateKeys
    · rfl
    · exact (opens blockedBefore blockedAfter).elim
    · exact (closes blockedBefore blockedAfter).elim
    · rfl

/-- All items of a gate change, one after the other. -/
theorem tracks_foldl_regate (gates : BTreeSet String) (resident : Resident definition data)
    {entries : List (ItemId × Bool)} (distinct : (entries.map Prod.fst).Nodup)
    (affected : ∀ entry ∈ entries, ∃ record, data.items[entry.1]? = some record ∧
      record.state = .pending ∧ record.superseded = false ∧
      entry.2 = gateKeysBlocked data.blockedGates record.gateKeys)
    (later : ∀ entry ∈ entries, entry.1 ∉ done)
    (tracks : Tracks definition.prioritySort data.items (fun record =>
      isEligible (if record.itemId ∈ done then gates else data.blockedGates) record) index) :
    ∃ done' : List ItemId, (∀ a, a ∈ done' ↔ a ∈ entries.map Prod.fst ∨ a ∈ done) ∧
      Tracks definition.prioritySort data.items (fun record =>
        isEligible (if record.itemId ∈ done' then gates else data.blockedGates) record)
        (entries.foldl (data.regate definition gates) index) := by
  induction entries generalizing done index with
  | nil => exact ⟨done, by simp, tracks⟩
  | cons entry rest ih =>
    rw [map_cons, nodup_cons] at distinct
    obtain ⟨record, found, pending, live, was⟩ := affected entry mem_cons_self
    have here := tracks_regate resident found pending live was (later entry mem_cons_self)
      tracks
    obtain ⟨done', members, last⟩ := ih distinct.2
      (fun other member => affected other (mem_cons_of_mem _ member)) (fun other member => by
        rw [mem_cons, not_or]
        exact ⟨fun same => distinct.1 (same ▸ mem_map_of_mem member),
          later other (mem_cons_of_mem _ member)⟩) here
    refine ⟨done', fun a => ?_, last⟩
    rw [members, mem_cons, map_cons, mem_cons]
    tauto

theorem InOrder.afterGates (inOrder : InOrder definition data) (resident : Resident definition data)
    (change : GateChange) : InOrder definition (data.applyGateChange definition change).state where
  tracks := by
    have start : Tracks definition.prioritySort data.items (fun record => isEligible
        (if record.itemId ∈ ([] : List ItemId) then change.applyTo data.blockedGates
          else data.blockedGates) record) data.eligible :=
      inOrder.tracks.agree fun _ _ _ => by simp
    have affected : ∀ entry ∈ data.gateAffected change.gateKeys,
        ∃ record, data.items[entry.1]? = some record ∧ record.state = .pending ∧
          record.superseded = false ∧
          entry.2 = gateKeysBlocked data.blockedGates record.gateKeys := by
      intro entry member
      obtain ⟨record, found, pending, live, _, was⟩ := mem_gateAffected.mp member
      exact ⟨record, found, pending, live, was⟩
    obtain ⟨done, members, tracks⟩ := tracks_foldl_regate (change.applyTo data.blockedGates)
      resident (gateAffected_nodup change.gateKeys) affected (by simp) start
    refine tracks.agree fun a record found => ?_
    rw [resident.keyed a record found]
    split
    · rfl
    · next untouched =>
      by_cases waiting : record.state = .pending ∧ record.superseded = false
      · have disjoint : ∀ key ∈ record.gateKeys, key ∉ change.gateKeys := by
          intro key member changed
          refine untouched ((members a).mpr (.inl ?_))
          refine mem_map.mpr ⟨(a, gateKeysBlocked data.blockedGates record.gateKeys), ?_, rfl⟩
          exact mem_gateAffected.mpr ⟨record, found, waiting.1, waiting.2,
            ⟨key, changed, inOrder.gated a record found waiting.2 key member⟩, rfl⟩
        simp only [isEligible]
        exact congrArg _ (congrArg _ (gateKeysBlocked_of_disjoint disjoint))
      · simp only [isEligible]
        cases state : record.state <;> cases superseded : record.superseded <;>
          simp_all
  gated := inOrder.gated

theorem Effect.inOrder {edit : Edit Priority Value Typed}
    (effect : Effect definition stamp data edit next) (resident : Resident definition data)
    (inOrder : InOrder definition data) : InOrder definition next := by
  cases effect with
  | insert fresh keyable => exact inOrder.afterInsert fresh
  | claim found live pending | cohortClaim found live pending =>
    exact (inOrder.afterTransition resident found .leased).rewrite (get_insert_self ..) rfl rfl rfl
      rfl rfl rfl rfl rfl
  | renew found | reassign found | fence found =>
    exact inOrder.rewrite found rfl rfl rfl rfl rfl rfl rfl rfl
  | update found live keyable keys => exact inOrder.afterUpdate resident found live
  | purge found | mutatePurge found => exact inOrder.afterPurge resident found
  | replace found resolved keyable => exact inOrder.afterReplace resident found
  | gates => exact inOrder.afterGates resident _
  | finalize found live leased ended =>
    obtain ⟨own, superseded, state, gateKeys, _⟩ := finalizedRecord_same _ _
    have itemId := resident.keyed _ _ found
    exact (inOrder.afterTransition resident found _).afterFinalize itemId (get_insert_self ..) live
      (own.trans itemId) state superseded gateKeys
  | supersede found pending =>
    refine inOrder.cleared resident found rfl rfl rfl (by simp [isEligible])
      (fun a key different held => has_replaceGateMemberships_of_ne different held) ?_
    intro live
    cases live
  | expire found live leased =>
    exact (inOrder.afterTransition resident found .pending).rewrite (get_insert_self ..) rfl rfl rfl
      rfl rfl rfl rfl rfl
  | expireCohort found =>
    have gated := inOrder.gated _ _ found
    exact inOrder.cleared resident found rfl rfl rfl (by simp [isEligible, failedRecord])
      (fun _ _ _ held => held) gated
  | pause | resume => exact ⟨inOrder.tracks, inOrder.gated⟩

end Keeping

end ProjectionData

end Projection
