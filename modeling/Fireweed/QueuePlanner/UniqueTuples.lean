import Fireweed.QueuePlanner.Commit

/-!
# Unique tuples

Which record holds which complete tuple of a unique index, and how the planner
accumulates releases and claims: as the difference of two sets of tuples, or from
the keys of the indexes a command affects.
-/

namespace QueuePlanner

open BTree Checked List QueueContract QueueFields QueueIndex Std UniqueFieldEffects

/-! ## Tuples of one record -/

/-- A complete tuple of one of the unique indexes. -/
structure HoldsTuple (collection : Option String) (definition : CollectionDefinition)
    (fields : Fields) (t : UniqueIdentity) : Prop where
  collection_eq : t.collection = collection
  unique : t.index ∈ definition.uniqueIndexes
  complete : ∃ columns, definition.indexes[t.index]? = some columns ∧
    (∀ c ∈ columns, fields[c]?.isSome = true) ∧
    orderedKey (columns.map fun c => fields[c]?) = .ok t.fullSortKey

section

variable {collection : Option String} {definition : CollectionDefinition} {a b : Fields}
  {t : UniqueIdentity} (equal : Fields.eq a b = true)

include equal

/-- Fields equal in the sense of the source hold the same tuples. -/
theorem HoldsTuple.congr (holds : HoldsTuple collection definition a t) :
    HoldsTuple collection definition b t := by
  rw [Fields.eq_iff] at equal
  obtain ⟨columns, found, present, key⟩ := holds.complete
  refine ⟨holds.collection_eq, holds.unique, columns, found, ?_, ?_⟩
  · intro c member
    rw [← valueEq_isSome (equal c)]
    exact present c member
  · rw [← key]
    refine (orderedKey_congr ?_).symm
    rw [forall₂_map_left_iff, forall₂_map_right_iff, forall₂_same]
    exact fun c _ => equal c

theorem holdsTuple_congr :
    HoldsTuple collection definition a t ↔ HoldsTuple collection definition b t := by
  refine ⟨HoldsTuple.congr equal, HoldsTuple.congr ?_⟩
  rw [Fields.eq_iff] at equal ⊢
  intro c
  rw [valueEq_symm]
  exact equal c

end

variable {columns : List String} {keys : List UniqueIdentity} {effects : List IndexEffect}
  {effect : IndexEffect}

section Keys

variable {message : String} {collection : Option String} {definition : CollectionDefinition}
  {get : String → QueueResult (Option FieldValue)} {fields : Fields}
  (answers : ∀ field value, get field = .ok value → fields[field]? = value)

include answers in
theorem mapM_get {values : List (Option FieldValue)} (ok : columns.mapM get = .ok values) :
    values = columns.map fun c => fields[c]? := by
  rw [mapM_eq_ok] at ok
  induction ok with
  | nil => rfl
  | cons head _ ih => rw [map_cons, ih, answers _ _ head]

include answers in
theorem uniqueKey_spec {index : String} {result : Option UniqueIdentity}
    (unique : index ∈ definition.uniqueIndexes)
    (ok : uniqueKey message collection get definition index = .ok result) (t : UniqueIdentity) :
    result = some t ↔ t.index = index ∧ HoldsTuple collection definition fields t := by
  rw [uniqueKey] at ok
  split at ok
  · cases ok
  · next columns found =>
    obtain ⟨values, loaded, ok⟩ := bind_eq_ok.mp ok
    obtain rfl := mapM_get answers loaded
    split at ok
    · next missing =>
      cases ok
      simp only [reduceCtorEq, false_iff]
      rintro ⟨rfl, holds⟩
      obtain ⟨columns', found', present, -⟩ := holds.complete
      rw [found, Option.some.injEq] at found'
      subst found'
      obtain ⟨value, among, absent⟩ := any_eq_true.mp missing
      obtain ⟨c, member, rfl⟩ := mem_map.mp among
      have here := present c member
      rw [Option.isNone_iff_eq_none.mp absent] at here
      cases here
    · next complete =>
      obtain ⟨key, encoded, ok⟩ := bind_eq_ok.mp ok
      cases ok
      have present : ∀ c ∈ columns, fields[c]?.isSome = true := by
        intro c member
        by_contra absent
        refine complete (any_eq_true.mpr ⟨_, mem_map_of_mem member, ?_⟩)
        rw [Option.isNone_iff_eq_none, ← Option.not_isSome_iff_eq_none]
        exact absent
      constructor
      · intro same
        cases same
        exact ⟨rfl, rfl, unique, columns, found, present, encoded⟩
      · rintro ⟨rfl, holds⟩
        obtain ⟨columns', found', -, key'⟩ := holds.complete
        rw [found, Option.some.injEq] at found'
        subst found'
        rw [encoded, Except.ok.injEq] at key'
        rw [key', ← holds.collection_eq]

include answers in
/-- The listed keys are the complete tuples. -/
theorem uniqueKeys_spec (ok : uniqueKeys message collection get definition = .ok keys)
    (t : UniqueIdentity) : t ∈ keys ↔ HoldsTuple collection definition fields t := by
  obtain ⟨results, collected, ok⟩ := bind_eq_ok.mp ok
  cases ok
  rw [mapM_eq_ok] at collected
  rw [reduceOption_mem_iff]
  constructor
  · intro member
    obtain ⟨index, among, found⟩ := forall₂_mem_right collected member
    exact ((uniqueKey_spec answers (ExtTreeSet.mem_toList.mp among) found t).mp rfl).2
  · intro holds
    obtain ⟨result, member, found⟩ :=
      forall₂_mem_left collected (ExtTreeSet.mem_toList.mpr holds.unique)
    rw [(uniqueKey_spec answers holds.unique found t).mpr ⟨rfl, holds⟩] at member
    exact member

end Keys

variable {collection : Option String} {fields : Fields} {definition : CollectionDefinition}

theorem recordUniqueKeys_spec (ok : recordUniqueKeys collection fields definition = .ok keys)
    (t : UniqueIdentity) : t ∈ keys ↔ HoldsTuple collection definition fields t :=
  uniqueKeys_spec (fun _ _ same => Except.ok.inj same) ok t

theorem checkedUniqueKeys_spec {view : CheckedFields}
    (ok : checkedUniqueKeys collection view definition = .ok keys) (t : UniqueIdentity) :
    t ∈ keys ↔ HoldsTuple collection definition view.fields t :=
  uniqueKeys_spec (fun _ _ => get_eq_ok) ok t

/-! ## Accumulated effects -/

/-- One record's tuples change from one set to another. -/
structure Moves (owner : RecordIdentity) (old new : UniqueIdentity → Prop)
    (before after : UniqueFieldEffects) : Prop where
  released : ∀ (t : UniqueIdentity) (r : RecordIdentity), after.releases[t]? = some r ↔
    before.releases[t]? = some r ∨ r = owner ∧ old t ∧ ¬new t
  claimed : ∀ t r, (t, r) ∈ after.claims ↔ (t, r) ∈ before.claims ∨ r = owner ∧ new t ∧ ¬old t

section Accumulate

variable {owner : RecordIdentity} {before after : UniqueFieldEffects}

theorem release_spec {tuple : UniqueIdentity} (ok : release owner before tuple = .ok after) :
    after.claims = before.claims ∧ ∀ (t : UniqueIdentity) (r : RecordIdentity),
      after.releases[t]? = some r ↔ before.releases[t]? = some r ∨ r = owner ∧ t = tuple := by
  obtain ⟨consistent, ok⟩ := check_bind_eq_ok.mp ok
  cases ok
  refine ⟨rfl, ?_⟩
  intro t r
  rw [get_insert]
  by_cases here : tuple = t
  · subst here
    rw [if_pos rfl, Option.some.injEq]
    constructor
    · exact fun same => .inr ⟨same.symm, rfl⟩
    · rintro (earlier | ⟨same, -⟩)
      · rw [rejectIf_eq_ok, earlier] at consistent
        exact (by simpa using consistent : r = owner).symm
      · exact same.symm
  · rw [if_neg here]
    simp [Ne.symm here]

theorem foldlM_release_spec {tuples : List UniqueIdentity}
    (ok : tuples.foldlM (release owner) before = .ok after) :
    after.claims = before.claims ∧ ∀ (t : UniqueIdentity) (r : RecordIdentity),
      after.releases[t]? = some r ↔ before.releases[t]? = some r ∨ r = owner ∧ t ∈ tuples := by
  refine foldlM_invariant (P := fun seen (effects : UniqueFieldEffects) =>
    effects.claims = before.claims ∧ ∀ (t : UniqueIdentity) (r : RecordIdentity),
      effects.releases[t]? = some r ↔ before.releases[t]? = some r ∨ r = owner ∧ t ∈ seen)
    (by simp) ?_ ok
  intro seen tuple effects effects' holds step
  obtain ⟨claims, released⟩ := release_spec step
  refine ⟨claims.trans holds.1, ?_⟩
  intro t r
  rw [released, holds.2, mem_append, mem_singleton, or_assoc, ← and_or_left]

theorem foldl_claim_spec (owner : RecordIdentity) (tuples : List UniqueIdentity)
    (effects : UniqueFieldEffects) :
    (tuples.foldl (claim owner) effects).releases = effects.releases ∧
      ∀ t r, (t, r) ∈ (tuples.foldl (claim owner) effects).claims ↔
        (t, r) ∈ effects.claims ∨ r = owner ∧ t ∈ tuples := by
  induction tuples generalizing effects with
  | nil => simp
  | cons tuple rest ih =>
    obtain ⟨releases, claims⟩ := ih (effects.claim owner tuple)
    refine ⟨releases, ?_⟩
    intro t r
    rw [foldl_cons, claims]
    simp only [claim, mem_append, Prod.mk.injEq, mem_cons]
    tauto

theorem exchange_spec {old new : List UniqueIdentity}
    (ok : before.exchange owner (ExtTreeSet.ofList old compare) (ExtTreeSet.ofList new compare) =
      .ok after) : Moves owner (· ∈ old) (· ∈ new) before after := by
  obtain ⟨middle, released, ok⟩ := bind_eq_ok.mp ok
  cases ok
  obtain ⟨keptClaims, releases⟩ := foldlM_release_spec released
  obtain ⟨keptReleases, claims⟩ := foldl_claim_spec owner
    ((ExtTreeSet.ofList new compare : BTreeSet UniqueIdentity).toList.filter fun t =>
      !(ExtTreeSet.ofList old compare : BTreeSet UniqueIdentity).contains t) middle
  constructor
  · intro t r
    rw [keptReleases, releases]
    simp [ExtTreeSet.mem_toList]
  · intro t r
    rw [claims, keptClaims]
    simp [ExtTreeSet.mem_toList]

def IndexEffect.Releases (effect : IndexEffect) (t : UniqueIdentity) : Prop :=
  effect.beforeUnique = true ∧ effect.index = t.index ∧ effect.before = some t.fullSortKey

def IndexEffect.Claims (effect : IndexEffect) (t : UniqueIdentity) : Prop :=
  effect.afterUnique = true ∧ effect.index = t.index ∧ effect.after = some t.fullSortKey

theorem releaseBefore_spec (ok : before.releaseBefore owner effect = .ok after) :
    after.claims = before.claims ∧ ∀ (t : UniqueIdentity) (r : RecordIdentity),
      after.releases[t]? = some r ↔
        before.releases[t]? = some r ∨
          r = owner ∧ t.collection = owner.collection ∧ IndexEffect.Releases effect t := by
  rw [releaseBefore] at ok
  split at ok
  · next key unique found =>
    obtain ⟨claims, releases⟩ := release_spec ok
    refine ⟨claims, ?_⟩
    rintro ⟨c, i, k⟩ r
    rw [releases]
    simp only [IndexEffect.Releases, unique, found, UniqueIdentity.mk.injEq, Option.some.injEq,
      true_and, @eq_comm _ _ i, @eq_comm _ _ k]
  · next other =>
    cases ok
    refine ⟨rfl, ?_⟩
    intro t r
    simp only [IndexEffect.Releases]
    constructor
    · exact .inl
    · rintro (earlier | ⟨-, -, unique, -, found⟩)
      · exact earlier
      · exact (other _ unique found).elim

theorem claimAfter_spec (owner : RecordIdentity) (effect : IndexEffect)
    (effects : UniqueFieldEffects) :
    (effects.claimAfter owner effect).releases = effects.releases ∧
      ∀ t r, (t, r) ∈ (effects.claimAfter owner effect).claims ↔ (t, r) ∈ effects.claims ∨
        r = owner ∧ t.collection = owner.collection ∧ IndexEffect.Claims effect t := by
  rw [claimAfter]
  split
  · next key unique found =>
    refine ⟨rfl, ?_⟩
    rintro ⟨c, i, k⟩ r
    simp only [claim, IndexEffect.Claims, mem_append, mem_singleton,
      Prod.mk.injEq, UniqueIdentity.mk.injEq, unique, found, Option.some.injEq, true_and,
      @eq_comm _ _ i, @eq_comm _ _ k]
    tauto
  · next other =>
    refine ⟨rfl, ?_⟩
    intro t r
    simp only [IndexEffect.Claims]
    constructor
    · exact .inl
    · rintro (earlier | ⟨-, -, unique, -, found⟩)
      · exact earlier
      · exact (other _ unique found).elim

/-- Index effects whose keys differ release and claim exactly those keys. -/
theorem extend_spec (changed : ∀ effect ∈ effects, effect.before ≠ effect.after)
    (ok : before.extend owner effects = .ok after) :
    (∀ (t : UniqueIdentity) (r : RecordIdentity), after.releases[t]? = some r ↔
      before.releases[t]? = some r ∨ r = owner ∧ t.collection = owner.collection ∧
        ∃ effect ∈ effects, IndexEffect.Releases effect t) ∧
    ∀ t r, (t, r) ∈ after.claims ↔ (t, r) ∈ before.claims ∨ r = owner ∧
      t.collection = owner.collection ∧ ∃ effect ∈ effects, IndexEffect.Claims effect t := by
  refine foldlM_invariant (P := fun seen (current : UniqueFieldEffects) =>
    (∀ effect ∈ seen, effect.before ≠ effect.after) →
    (∀ (t : UniqueIdentity) (r : RecordIdentity), current.releases[t]? = some r ↔
      before.releases[t]? = some r ∨ r = owner ∧ t.collection = owner.collection ∧
        ∃ effect ∈ seen, IndexEffect.Releases effect t) ∧
    ∀ t r, (t, r) ∈ current.claims ↔ (t, r) ∈ before.claims ∨ r = owner ∧
      t.collection = owner.collection ∧ ∃ effect ∈ seen, IndexEffect.Claims effect t)
    (by simp) ?_ ok changed
  intro seen effect current next holds step changed
  obtain ⟨releases, claims⟩ := holds fun e member => changed e (mem_append_left _ member)
  have different := changed effect (by simp)
  obtain ⟨eligible, step⟩ := check_bind_eq_ok.mp step
  simp only [mem_append, mem_singleton, or_and_right, exists_or, exists_eq_left]
  split at step
  · next skipped =>
    cases step
    simp only [beq_eq_false_iff_ne.mpr different, Bool.false_and, Bool.or_false,
      Bool.not_eq_true'] at skipped
    rw [rejectIf_eq_ok] at eligible
    simp only [skipped, Bool.not_false, Bool.true_or, Bool.and_true, Bool.or_eq_false_iff]
      at eligible
    simp only [IndexEffect.Releases, IndexEffect.Claims, eligible, Bool.false_eq_true, false_and,
      or_false]
    exact ⟨releases, claims⟩
  · obtain ⟨middle, released, step⟩ := bind_eq_ok.mp step
    cases step
    obtain ⟨keptClaims, releases'⟩ := releaseBefore_spec released
    obtain ⟨keptReleases, claims'⟩ := claimAfter_spec owner effect middle
    constructor
    · intro t r
      rw [keptReleases, releases', releases, or_assoc, ← and_or_left, ← and_or_left]
    · intro t r
      rw [claims', keptClaims, claims, or_assoc, ← and_or_left, ← and_or_left]

end Accumulate

/-! ## Index effects -/

section IndexEffects

variable {view : CheckedFields} {change : ResolvedFields} {definition : CollectionDefinition}

/-- The values after a command are those of the edited fields. -/
theorem after_eq_ok {field : String} {value : Option FieldValue}
    (ok : change.after view field = .ok value) : (change.apply view.fields)[field]? = value := by
  cases change with
  | preserve => exact get_eq_ok ok
  | replace fields => exact Except.ok.inj ok
  | edit edits =>
    rw [ResolvedFields.apply, get_applyFieldEdits]
    rw [ResolvedFields.after] at ok
    split at ok
    · next value' found =>
      rw [found]
      exact Except.ok.inj ok
    · next missing =>
      rw [missing]
      exact get_eq_ok ok

/-- A command changes no field of an index it does not affect. -/
theorem apply_unaffected
    (unaffected : indexIsAffected columns change.isReplace change.edits? = false) {c : String}
    (member : c ∈ columns) : (change.apply fields)[c]? = fields[c]? := by
  simp only [indexIsAffected, Bool.or_eq_false_iff, any_eq_false] at unaffected
  cases change with
  | preserve => rfl
  | replace replacement => cases unaffected.1
  | edit edits =>
    rw [ResolvedFields.apply, get_applyFieldEdits]
    have outside := unaffected.2 c member
    simp only [ResolvedFields.edits?, ExtTreeMap.contains_eq_isSome_getElem?, Bool.not_eq_true,
      Option.isSome_eq_false_iff, Option.isNone_iff_eq_none] at outside
    rw [outside]
    rfl

/-- The old and new tuples of an affected index. -/
structure Affected (view : CheckedFields) (change : ResolvedFields) (columns : List String)
    (old new : List UInt8) : Prop where
  affected : indexIsAffected columns change.isReplace change.edits? = true
  oldKey : encodeValues (columns.map fun c => view.fields[c]?) = .ok old
  newKey : encodeValues (columns.map fun c => (change.apply view.fields)[c]?) = .ok new

def effectOf (definition : CollectionDefinition) (view : CheckedFields) (change : ResolvedFields)
    (name : String) (columns : List String) (old new : List UInt8) : IndexEffect where
  index := name
  unique := definition.uniqueIndexes.contains name
  beforeUnique := definition.uniqueIndexes.contains name &&
    (columns.map fun c => view.fields[c]?).all Option.isSome
  afterUnique := definition.uniqueIndexes.contains name &&
    (columns.map fun c => (change.apply view.fields)[c]?).all Option.isSome
  before := some old
  after := some new

theorem indexEffect_cases {effects' : List IndexEffect} {entry : String × List String}
    (ok : indexEffect view change definition effects entry = .ok effects') :
    (indexIsAffected entry.2 change.isReplace change.edits? = false ∧ effects' = effects) ∨
    ∃ old new, Affected view change entry.2 old new ∧
      effects' = if old = new then effects
        else effects ++ [effectOf definition view change entry.1 entry.2 old new] := by
  rw [indexEffect] at ok
  split at ok
  · next unaffected =>
    cases ok
    exact .inl ⟨by simpa using unaffected, rfl⟩
  · next affected =>
    obtain ⟨oldValues, loaded, ok⟩ := bind_eq_ok.mp ok
    obtain ⟨newValues, resolved, ok⟩ := bind_eq_ok.mp ok
    obtain rfl := mapM_get (fun _ _ => get_eq_ok) loaded
    obtain rfl := mapM_get (fun _ _ => after_eq_ok) resolved
    obtain ⟨-, ok⟩ := check_bind_eq_ok.mp ok
    obtain ⟨-, ok⟩ := check_bind_eq_ok.mp ok
    obtain ⟨old, first, ok⟩ := bind_eq_ok.mp ok
    obtain ⟨new, second, ok⟩ := bind_eq_ok.mp ok
    obtain ⟨oldKey, encodedOld, first⟩ := bind_eq_ok.mp first
    obtain ⟨newKey, encodedNew, second⟩ := bind_eq_ok.mp second
    cases first
    cases second
    cases ok
    exact .inr ⟨oldKey, newKey, ⟨by simpa using affected, encodedOld, encodedNew⟩, rfl⟩

/-- Every index is unaffected or has its two keys, and the effects are those with two different
keys. -/
theorem resolveIndexEffects_spec (ok : resolveIndexEffects view change definition = .ok effects) :
    (∀ (name : String) (columns : List String), definition.indexes[name]? = some columns →
      indexIsAffected columns change.isReplace change.edits? = false ∨
      ∃ old new, Affected view change columns old new ∧
        (old ≠ new → effectOf definition view change name columns old new ∈ effects)) ∧
    ∀ effect ∈ effects, ∃ (name : String) (columns : List String) (old new : List UInt8),
      definition.indexes[name]? = some columns ∧ Affected view change columns old new ∧
        old ≠ new ∧ effect = effectOf definition view change name columns old new := by
  have invariant := foldlM_invariant (P := fun seen (effects : List IndexEffect) =>
    (∀ entry ∈ seen, indexIsAffected entry.2 change.isReplace change.edits? = false ∨
      ∃ old new, Affected view change entry.2 old new ∧
        (old ≠ new → effectOf definition view change entry.1 entry.2 old new ∈ effects)) ∧
    ∀ effect ∈ effects, ∃ entry ∈ seen, ∃ (old new : List UInt8),
      Affected view change entry.2 old new ∧ old ≠ new ∧
        effect = effectOf definition view change entry.1 entry.2 old new) (by simp) ?_ ok
  · constructor
    · intro name columns found
      exact invariant.1 (name, columns) ((mem_toList_iff _ name columns).mpr found)
    · intro effect member
      obtain ⟨⟨name, columns⟩, among, old, new, rest⟩ := invariant.2 effect member
      exact ⟨name, columns, old, new, (mem_toList_iff _ name columns).mp among, rest⟩
  · intro seen entry effects effects' holds step
    rcases indexEffect_cases step with ⟨unaffected, rfl⟩ | ⟨old, new, affected, rfl⟩
    · constructor
      · exact forall_mem_snoc holds.1 (.inl unaffected)
      · intro effect member
        obtain ⟨other, among, rest⟩ := holds.2 effect member
        exact ⟨other, mem_append_left _ among, rest⟩
    · have grows : ∀ effect ∈ effects, effect ∈ if old = new then effects
          else effects ++ [effectOf definition view change entry.1 entry.2 old new] := by
        intro effect member
        split
        · exact member
        · exact mem_append_left _ member
      constructor
      · intro other member
        rcases mem_append.mp member with earlier | last
        · rcases holds.1 other earlier with unaffected | ⟨o, n, keys, present⟩
          · exact .inl unaffected
          · exact .inr ⟨o, n, keys, fun different => grows _ (present different)⟩
        · rw [mem_singleton.mp last]
          refine .inr ⟨old, new, affected, fun different => ?_⟩
          rw [if_neg different]
          exact mem_append_right _ mem_cons_self
      · intro effect member
        split at member
        · obtain ⟨other, among, rest⟩ := holds.2 effect member
          exact ⟨other, mem_append_left _ among, rest⟩
        · next different =>
          rcases mem_append.mp member with earlier | last
          · obtain ⟨other, among, rest⟩ := holds.2 effect earlier
            exact ⟨other, mem_append_left _ among, rest⟩
          · exact ⟨entry, by simp, old, new, affected, different, mem_singleton.mp last⟩

variable {t : UniqueIdentity}

/-- With the key of its index at hand, a tuple is held when it is that key. -/
theorem holdsTuple_iff {key : List UInt8} (same : t.collection = collection)
    (found : definition.indexes[t.index]? = some columns)
    (encoded : encodeValues (columns.map fun c => fields[c]?) = .ok key) :
    HoldsTuple collection definition fields t ↔
      (definition.uniqueIndexes.contains t.index &&
        (columns.map fun c => fields[c]?).all Option.isSome) = true ∧ key = t.fullSortKey := by
  constructor
  · rintro ⟨-, unique, columns', found', present, sort⟩
    rw [found, Option.some.injEq] at found'
    subst found'
    rw [orderedKey, encoded, Except.ok.injEq] at sort
    refine ⟨?_, sort⟩
    rw [Bool.and_eq_true, ExtTreeSet.contains_iff_mem, all_map, all_eq_true]
    exact ⟨unique, present⟩
  · rintro ⟨eligible, rfl⟩
    rw [Bool.and_eq_true, ExtTreeSet.contains_iff_mem, all_map, all_eq_true] at eligible
    exact ⟨same, eligible.1, columns, found, eligible.2, encoded⟩

theorem HoldsTuple.of_columns {a b : Fields} (found : definition.indexes[t.index]? = some columns)
    (same : ∀ c ∈ columns, a[c]? = b[c]?) (holds : HoldsTuple collection definition a t) :
    HoldsTuple collection definition b t := by
  obtain ⟨columns', found', present, key⟩ := holds.complete
  rw [found, Option.some.injEq] at found'
  subst found'
  refine ⟨holds.collection_eq, holds.unique, columns, found, ?_, ?_⟩
  · exact fun c member => same c member ▸ present c member
  · rw [← map_congr_left same]
    exact key

/-- The effects with the name of a declared index come from its columns. -/
theorem effect_of_index {name : String}
    (sources : ∀ effect ∈ effects, ∃ (name : String) (columns : List String) (old new : List UInt8),
      definition.indexes[name]? = some columns ∧ Affected view change columns old new ∧
        old ≠ new ∧ effect = effectOf definition view change name columns old new)
    (found : definition.indexes[name]? = some columns) (member : effect ∈ effects)
    (index : effect.index = name) :
    ∃ old new, Affected view change columns old new ∧ old ≠ new ∧
      effect = effectOf definition view change name columns old new := by
  obtain ⟨name', columns', old, new, found', affected, different, rfl⟩ := sources effect member
  obtain rfl : name' = name := index
  rw [found, Option.some.injEq] at found'
  subst found'
  exact ⟨old, new, affected, different, rfl⟩

/-- A tuple is released or claimed according to whether it was and will be held. -/
structure Tracks (effects : List IndexEffect) (t : UniqueIdentity) (old new : Prop) : Prop where
  released : (∃ effect ∈ effects, IndexEffect.Releases effect t) ↔ old ∧ ¬new
  claimed : (∃ effect ∈ effects, IndexEffect.Claims effect t) ↔ new ∧ ¬old

/-- The effects of a command are the difference of the tuples before and after it. -/
theorem indexEffects_tracks (ok : resolveIndexEffects view change definition = .ok effects)
    (same : t.collection = collection) :
    Tracks effects t (HoldsTuple collection definition view.fields t)
      (HoldsTuple collection definition (change.apply view.fields) t) := by
  obtain ⟨indexes, sources⟩ := resolveIndexEffects_spec ok
  -- Without an effect on its index a tuple must not change hands.
  have quiet : (∀ effect ∈ effects, effect.index ≠ t.index) →
      (HoldsTuple collection definition view.fields t ↔
        HoldsTuple collection definition (change.apply view.fields) t) →
      Tracks effects t (HoldsTuple collection definition view.fields t)
        (HoldsTuple collection definition (change.apply view.fields) t) := by
    intro silent unchanged
    refine ⟨iff_of_false ?_ fun difference => difference.2 (unchanged.mp difference.1),
      iff_of_false ?_ fun difference => difference.2 (unchanged.mpr difference.1)⟩
    · rintro ⟨effect, member, -, index, -⟩
      exact silent effect member index
    · rintro ⟨effect, member, -, index, -⟩
      exact silent effect member index
  cases found : definition.indexes[t.index]? with
  | none =>
    have nothing : ∀ fields, ¬HoldsTuple collection definition fields t := by
      rintro fields ⟨-, -, columns, found', -⟩
      rw [found] at found'
      cases found'
    refine quiet ?_ (iff_of_false (nothing _) (nothing _))
    rintro effect member index
    obtain ⟨name, columns, old, new, found', -, -, rfl⟩ := sources effect member
    obtain rfl : name = t.index := index
    rw [found] at found'
    cases found'
  | some columns =>
    rcases indexes t.index columns found with unaffected | ⟨old, new, keys, listed⟩
    · refine quiet ?_ ⟨HoldsTuple.of_columns found fun c member =>
        (apply_unaffected unaffected member).symm, HoldsTuple.of_columns found fun c member =>
        apply_unaffected unaffected member⟩
      intro effect member index
      obtain ⟨_, _, affected, -⟩ := effect_of_index sources found member index
      exact absurd (unaffected.symm.trans affected.affected) (by decide)
    · have before := holdsTuple_iff same found keys.oldKey
      have after := holdsTuple_iff same found keys.newKey
      have unique : ∀ effect ∈ effects, effect.index = t.index →
          old ≠ new ∧ effect = effectOf definition view change t.index columns old new := by
        intro effect member index
        obtain ⟨old', new', keys', different, rfl⟩ := effect_of_index sources found member index
        have first := keys.oldKey.symm.trans keys'.oldKey
        have second := keys.newKey.symm.trans keys'.newKey
        cases first
        cases second
        exact ⟨different, rfl⟩
      by_cases changed : old = new
      · subst changed
        refine quiet (fun effect member index => (unique effect member index).1 rfl) ?_
        have missing := encodeValues_missing keys.oldKey keys.newKey (by simp)
        rw [before, after]
        have complete : ∀ values : List (Option FieldValue),
            values.all Option.isSome = (values.map Option.isSome).all id := by simp
        rw [complete, complete (columns.map _), missing]
      · rw [before, after]
        constructor
        · constructor
          · rintro ⟨effect, member, eligible, index, key⟩
            obtain ⟨-, rfl⟩ := unique effect member index
            have key : old = t.fullSortKey := Option.some.inj key
            exact ⟨⟨eligible, key⟩, fun other => changed (key.trans other.2.symm)⟩
          · rintro ⟨⟨eligible, key⟩, -⟩
            exact ⟨_, listed changed, eligible, rfl, congrArg some key⟩
        · constructor
          · rintro ⟨effect, member, eligible, index, key⟩
            obtain ⟨-, rfl⟩ := unique effect member index
            have key : new = t.fullSortKey := Option.some.inj key
            exact ⟨⟨eligible, key⟩, fun other => changed (other.2.trans key.symm)⟩
          · rintro ⟨⟨eligible, key⟩, -⟩
            exact ⟨_, listed changed, eligible, rfl, congrArg some key⟩

/-- Extending by the index effects of a command moves the tuples of the record. -/
theorem extend_moves {owner : RecordIdentity} {before after : UniqueFieldEffects}
    (resolved : resolveIndexEffects view change definition = .ok effects)
    (ok : before.extend owner effects = .ok after) :
    Moves owner (HoldsTuple owner.collection definition view.fields)
      (HoldsTuple owner.collection definition (change.apply view.fields)) before after := by
  obtain ⟨releases, claims⟩ := extend_spec (fun effect member => by
    obtain ⟨_, _, old, new, -, -, different, rfl⟩ :=
      (resolveIndexEffects_spec resolved).2 effect member
    exact fun same => different (Option.some.inj same)) ok
  constructor
  · intro t r
    rw [releases]
    refine or_congr_right (and_congr_right fun _ => ?_)
    constructor
    · rintro ⟨same, effect⟩
      exact (indexEffects_tracks resolved same).released.mp effect
    · intro difference
      have same := difference.1.collection_eq
      exact ⟨same, (indexEffects_tracks resolved same).released.mpr difference⟩
  · intro t r
    rw [claims]
    refine or_congr_right (and_congr_right fun _ => ?_)
    constructor
    · rintro ⟨same, effect⟩
      exact (indexEffects_tracks resolved same).claimed.mp effect
    · intro difference
      have same := difference.1.collection_eq
      exact ⟨same, (indexEffects_tracks resolved same).claimed.mpr difference⟩

end IndexEffects

end QueuePlanner
