import Fireweed.Ownership
import Fireweed.QueuePlanner.UniqueTuples

/-!
# Ownership effects of a delta

The releases and claims of a delta are the difference of what its records hold
before and after it, on every path of the planner, and their validation decides
whether they are admissible.
-/

namespace QueuePlanner

open BTree Checked List Ownership QueueContract QueueFields Std UniqueFieldEffects

/-! ## Tuples before and after a delta -/

def RecordSnapshot.Holds (schema : QueueSchema) (snapshot : RecordSnapshot) (id : RecordIdentity)
    (t : UniqueIdentity) : Prop :=
  match id.collection with
  | none => ∃ row, snapshot.work[id.key]? = some row ∧ HoldsTuple none schema.work row.fields t
  | some collection => ∃ row definition, snapshot.state[(collection, id.key)]? = some row ∧
      schema.state[collection]? = some definition ∧
      HoldsTuple (some collection) definition row.fields t

/-- The tuples a record listed by a delta will hold. -/
def CommitDelta.Holds (schema : QueueSchema) (delta : CommitDelta) (id : RecordIdentity)
    (t : UniqueIdentity) : Prop :=
  match id.collection with
  | none => ∃ row, workRow delta id.key = some row ∧ HoldsTuple none schema.work row.fields t
  | some collection => ∃ row definition, stateRow delta (collection, id.key) = some row ∧
      schema.state[collection]? = some definition ∧
      HoldsTuple (some collection) definition row.fields t

variable {owner : RecordIdentity}

section Effects

variable {delta : CommitDelta} {original : RecordSnapshot} {schema : QueueSchema}
  {before after : UniqueFieldEffects}

theorem Moves.congr {old new old' new' : UniqueIdentity → Prop}
    (moves : Moves owner old new before after) (left : ∀ t, old t ↔ old' t)
    (right : ∀ t, new t ↔ new' t) : Moves owner old' new' before after := by
  obtain rfl : old = old' := funext fun t => propext (left t)
  obtain rfl : new = new' := funext fun t => propext (right t)
  exact moves

theorem workUniqueEffect_moves {key : String}
    (ok : workUniqueEffect delta original schema before key = .ok after) :
    Moves ⟨none, key⟩ (original.Holds schema ⟨none, key⟩) (delta.Holds schema ⟨none, key⟩)
      before after := by
  rw [workUniqueEffect] at ok
  change Moves _
    (fun t => ∃ row, original.work[key]? = some row ∧ HoldsTuple none schema.work row.fields t)
    (fun t => ∃ row, workRow delta key = some row ∧ HoldsTuple none schema.work row.fields t) _ _
  split at ok
  · next row listed =>
    obtain ⟨change, command, ok⟩ := bind_eq_ok.mp ok
    obtain ⟨body, bodyCommand, ok⟩ := bind_eq_ok.mp ok
    obtain ⟨viewed, ok⟩ := check_bind_eq_ok.mp ok
    split at ok
    · next old found =>
      obtain ⟨view, loaded, ok⟩ := bind_eq_ok.mp ok
      obtain rfl := view_eq_ok loaded
      split at ok
      · obtain ⟨oldKeys, first, ok⟩ := bind_eq_ok.mp ok
        obtain ⟨newKeys, second, ok⟩ := bind_eq_ok.mp ok
        refine (exchange_spec ok).congr ?_ ?_
        · intro t
          simp [checkedUniqueKeys_spec first, found]
        · intro t
          simp [recordUniqueKeys_spec second, listed]
      · obtain ⟨effects, resolved, ok⟩ := bind_eq_ok.mp ok
        rw [found] at viewed
        have same := validateFieldView_sound (check_bind_eq_ok.mp viewed).2
        refine (extend_moves resolved ok).congr ?_ ?_
        · intro t
          simp [found]
        · intro t
          simp only [listed, Option.some.injEq, exists_eq_left']
          exact holdsTuple_congr same
    · next missing =>
      obtain ⟨-, ok⟩ := check_bind_eq_ok.mp ok
      obtain ⟨newKeys, second, ok⟩ := bind_eq_ok.mp ok
      cases ok
      obtain ⟨releases, claims⟩ := foldl_claim_spec ⟨none, key⟩ newKeys before
      constructor
      · intro t r
        rw [releases]
        simp [missing]
      · intro t r
        rw [claims]
        simp [missing, listed, recordUniqueKeys_spec second]
  · next absent =>
    split at ok
    · next old found =>
      obtain ⟨view, loaded, ok⟩ := bind_eq_ok.mp ok
      obtain rfl := view_eq_ok loaded
      obtain ⟨oldKeys, first, ok⟩ := bind_eq_ok.mp ok
      obtain ⟨claims, releases⟩ := foldlM_release_spec ok
      constructor
      · intro t r
        rw [releases]
        simp [absent, found, checkedUniqueKeys_spec first]
      · intro t r
        rw [claims]
        simp [absent]
    · next missing =>
      cases ok
      constructor <;> simp [absent, missing]

theorem stateUniqueKeys_spec {collection : String} {row : Option StateRecord}
    {definition : CollectionDefinition} {keys : List UniqueIdentity}
    (ok : stateUniqueKeys collection row definition = .ok keys) (t : UniqueIdentity) :
    t ∈ keys ↔ ∃ r, row = some r ∧ HoldsTuple (some collection) definition r.fields t := by
  cases row with
  | none =>
    cases ok
    simp
  | some row => simp [recordUniqueKeys_spec ok]

theorem stateUniqueEffect_moves {collection key : String}
    (ok : stateUniqueEffect delta original schema before collection key = .ok after) :
    Moves ⟨some collection, key⟩ (original.Holds schema ⟨some collection, key⟩)
      (delta.Holds schema ⟨some collection, key⟩) before after := by
  rw [stateUniqueEffect] at ok
  split at ok
  · cases ok
  · next definition found =>
    obtain ⟨old, first, ok⟩ := bind_eq_ok.mp ok
    obtain ⟨new, second, ok⟩ := bind_eq_ok.mp ok
    refine (exchange_spec ok).congr ?_ ?_
    · intro t
      simp [stateUniqueKeys_spec first, RecordSnapshot.Holds, found]
    · intro t
      simp [stateUniqueKeys_spec second, CommitDelta.Holds, found]

theorem uniqueEffect_moves {version : RecordVersion}
    (ok : uniqueEffect delta original schema before version = .ok after) :
    Moves (versionIdentity version) (original.Holds schema (versionIdentity version))
      (delta.Holds schema (versionIdentity version)) before after := by
  obtain ⟨collection, key, number⟩ := version
  cases collection with
  | none => exact workUniqueEffect_moves ok
  | some collection => exact stateUniqueEffect_moves ok

/-- The effects of a delta are the difference of the tuples of the records it lists. -/
theorem uniqueEffects_spec {effects : UniqueFieldEffects}
    (ok : uniqueEffects delta original schema = .ok effects) :
    (∀ (t : UniqueIdentity) (r : RecordIdentity), effects.releases[t]? = some r ↔
      r ∈ delta.versions.map versionIdentity ∧ original.Holds schema r t ∧
        ¬delta.Holds schema r t) ∧
    ∀ t r, (t, r) ∈ effects.claims ↔ r ∈ delta.versions.map versionIdentity ∧
      delta.Holds schema r t ∧ ¬original.Holds schema r t := by
  obtain ⟨-, ok⟩ := check_bind_eq_ok.mp ok
  refine foldlM_invariant (P := fun seen (effects : UniqueFieldEffects) =>
    (∀ (t : UniqueIdentity) (r : RecordIdentity), effects.releases[t]? = some r ↔
      r ∈ seen.map versionIdentity ∧ original.Holds schema r t ∧ ¬delta.Holds schema r t) ∧
    ∀ t r, (t, r) ∈ effects.claims ↔ r ∈ seen.map versionIdentity ∧
      delta.Holds schema r t ∧
        ¬original.Holds schema r t) (by simp [empty]) ?_ ok
  intro seen version effects effects' holds step
  have moves := uniqueEffect_moves step
  constructor
  · intro t r
    rw [moves.released, holds.1, map_append, mem_append, or_and_right, map_singleton, mem_singleton]
    refine or_congr_right (and_congr_right ?_)
    rintro rfl
    rfl
  · intro t r
    rw [moves.claimed, holds.2, map_append, mem_append, or_and_right, map_singleton, mem_singleton]
    refine or_congr_right (and_congr_right ?_)
    rintro rfl
    rfl

end Effects

/-! ## Validation -/

section Validation

variable {effects : UniqueFieldEffects} {initial : RecordSnapshot}

theorem validate_releases :
    (forM effects.releases.toList (validateRelease initial) = .ok ()) ↔
      ∀ (t : UniqueIdentity) (r : RecordIdentity), effects.releases[t]? = some r →
        t ∈ initial.uniqueProbesLoaded ∧ initial.uniqueOwners[t]? = some r := by
  rw [forM_eq_ok]
  constructor
  · intro each t r released
    simpa [validateRelease] using
      each (t, r) ((mem_toList_iff _ t r).mpr released)
  · rintro each ⟨t, r⟩ member
    simpa [validateRelease] using each t r ((mem_toList_iff _ t r).mp member)

/-- The claims that went through so far, or that they do not go together. -/
def ClaimsSeen (effects : UniqueFieldEffects) (initial : RecordSnapshot)
    (seen : List (UniqueIdentity × RecordIdentity)) :
    Except Rejection (BTreeMap UniqueIdentity RecordIdentity) → Prop
  | .ok claims => (∀ (t : UniqueIdentity) (r : RecordIdentity),
      claims[t]? = some r ↔ (t, r) ∈ seen) ∧
      Compatible initial.uniqueOwners effects.releases seen
  | .error reason => reason = .uniqueConflict ∧
      ¬Compatible initial.uniqueOwners effects.releases seen

variable {seen : List (UniqueIdentity × RecordIdentity)}

/-- A claim without a contradiction extends the map and the compatible list. -/
theorem ClaimsSeen.extend {tuple : UniqueIdentity} {claims : BTreeMap UniqueIdentity RecordIdentity}
    (holds : ClaimsSeen effects initial seen (.ok claims))
    (agrees : ¬(claims[tuple]?.any (· != owner)) = true)
    (vacated : ∀ o, initial.uniqueOwners[tuple]? = some o → o = owner ∨
      effects.releases[tuple]? = some o) :
    ClaimsSeen effects initial (seen ++ [(tuple, owner)]) (.ok (claims.insert tuple owner)) := by
  obtain ⟨same, compatible⟩ := holds
  have unique : ∀ r, (tuple, r) ∈ seen → r = owner := by
    intro r member
    rw [(same tuple r).mpr member] at agrees
    simpa using agrees
  have others : ∀ t r, (t, r) ∈ seen ++ [(tuple, owner)] ↔
      (t, r) ∈ seen ∨ t = tuple ∧ r = owner := by simp
  refine ⟨?_, ⟨?_, ?_⟩⟩
  · intro t r
    rw [get_insert, others]
    by_cases here : tuple = t
    · subst here
      rw [if_pos rfl, Option.some.injEq]
      constructor
      · exact fun equal => .inr ⟨rfl, equal.symm⟩
      · rintro (earlier | ⟨-, equal⟩)
        · exact (unique r earlier).symm
        · exact equal.symm
    · rw [if_neg here, same]
      simp [Ne.symm here]
  · intro t r r' first second
    rcases (others t r).mp first with first | ⟨here, left⟩
    · rcases (others t r').mp second with second | ⟨here, right⟩
      · exact compatible.functional t r r' first second
      · rw [right]
        exact unique r (here ▸ first)
    · rcases (others t r').mp second with second | ⟨-, right⟩
      · rw [left]
        exact (unique r' (here ▸ second)).symm
      · rw [left, right]
  · intro t r o member owned
    rcases (others t r).mp member with earlier | ⟨rfl, rfl⟩
    · exact compatible.vacated t r o earlier owned
    · exact vacated o owned

theorem validateClaim_step {entry : UniqueIdentity × RecordIdentity}
    {claims claims' : Except Rejection (BTreeMap UniqueIdentity RecordIdentity)}
    (holds : ClaimsSeen effects initial seen claims)
    (ok : effects.validateClaim initial claims entry = .ok claims') :
    ClaimsSeen effects initial (seen ++ [entry]) claims' := by
  obtain ⟨tuple, owner⟩ := entry
  rw [validateClaim.eq_def] at ok
  cases claims with
  | error reason =>
    cases ok
    exact ⟨holds.1, fun later => holds.2 (later.mono (by simp))⟩
  | ok claims =>
    simp only at ok
    split at ok
    · cases ok
    · split at ok
      · next clash =>
        cases ok
        refine ⟨rfl, fun all => ?_⟩
        cases found : claims[tuple]? with
        | none => simp [found] at clash
        | some r =>
          have different : r ≠ owner := by simpa [found] using clash
          exact different (all.functional tuple r owner
            (mem_append_left _ ((holds.1 tuple r).mp found)) (by simp))
      · next agrees =>
        split at ok
        · next old owned =>
          split at ok
          · next conflict =>
            cases ok
            simp only [Bool.and_eq_true, bne_iff_ne] at conflict
            refine ⟨rfl, fun all => ?_⟩
            rcases all.vacated tuple owner old (by simp) owned with equal | released
            · exact conflict.1 equal
            · exact conflict.2 released
          · next vacated =>
            cases ok
            refine holds.extend agrees fun o found => ?_
            rw [owned, Option.some.injEq] at found
            subst found
            simp only [Bool.and_eq_true, bne_iff_ne, not_and, not_not] at vacated
            by_cases equal : old = owner
            · exact .inl equal
            · exact .inr (vacated equal)
        · next free =>
          cases ok
          refine holds.extend agrees fun o found => ?_
          rw [free] at found
          cases found

/-- Validation decides whether the effects are admissible. -/
theorem validate_spec {outcome : Except Rejection Unit}
    (ok : effects.validate initial = .ok outcome) :
    (outcome = .ok () ∧ Admissible initial.uniqueOwners effects.releases effects.claims) ∨
      (outcome = .error .uniqueConflict ∧
        ¬Admissible initial.uniqueOwners effects.releases effects.claims) := by
  obtain ⟨released, ok⟩ := check_bind_eq_ok.mp ok
  obtain ⟨claims, folded, ok⟩ := bind_eq_ok.mp ok
  cases ok
  have seen : ClaimsSeen effects initial effects.claims claims :=
    foldlM_invariant (P := ClaimsSeen effects initial) (s := .ok ∅)
      ⟨by simp, ⟨by simp, by simp⟩⟩ (fun _ _ _ _ holds step => validateClaim_step holds step) folded
  have authorised := validate_releases.mp released
  cases claims with
  | ok claims => exact .inl ⟨rfl, ⟨seen.2, fun t o found => (authorised t o found).2⟩⟩
  | error reason =>
    obtain ⟨rfl, incompatible⟩ := seen
    exact .inr ⟨rfl, fun admissible => incompatible admissible.toCompatible⟩

/-- Validation answers when every tuple is loaded and releases are authorised. -/
theorem validate_total (effects : UniqueFieldEffects) (initial : RecordSnapshot)
    (authorised : ∀ (t : UniqueIdentity) (r : RecordIdentity), effects.releases[t]? = some r →
      t ∈ initial.uniqueProbesLoaded ∧ initial.uniqueOwners[t]? = some r)
    (loaded : ∀ t r, (t, r) ∈ effects.claims → t ∈ initial.uniqueProbesLoaded) :
    ∃ outcome, effects.validate initial = .ok outcome := by
  obtain ⟨claims, folded, -⟩ := foldlM_total (P := fun _ _ => True) (l := effects.claims)
    (s := (.ok ∅ : Except Rejection (BTreeMap UniqueIdentity RecordIdentity)))
    (f := effects.validateClaim initial) trivial (by
      intro seen entry rest claims split _
      have member : entry ∈ effects.claims := by
        rw [split]
        simp
      have present : initial.uniqueProbesLoaded.contains entry.1 = true :=
        ExtTreeSet.contains_iff_mem.mpr (loaded entry.1 entry.2 member)
      rw [validateClaim.eq_def]
      cases claims with
      | error reason => exact ⟨_, rfl, trivial⟩
      | ok claims =>
        simp only [present, Bool.not_true, Bool.false_eq_true, if_false]
        split
        · exact ⟨_, rfl, trivial⟩
        · split
          · split <;> exact ⟨_, rfl, trivial⟩
          · exact ⟨_, rfl, trivial⟩)
  refine ⟨claims.map fun _ => (), ?_⟩
  rw [validate, check_bind_eq_ok]
  exact ⟨validate_releases.mpr authorised, bind_eq_ok.mpr ⟨claims, folded, rfl⟩⟩

end Validation

end QueuePlanner
