import Fireweed.BTree

/-!
# Exclusive ownership

A table of owners follows a relation that says which record holds which tuple. A
change of the relation is published as releases and claims; an admissible change
settles into a table that follows the new relation, and a change is admissible
exactly when the new relation is exclusive.
-/

namespace Ownership

open BTree Std

variable {τ ρ : Type} [Ord τ] [TransOrd τ] [LawfulEqOrd τ]

/-- A table that names only holders. -/
def Sound (owners : BTreeMap τ ρ) (holds : ρ → τ → Prop) : Prop :=
  ∀ (t : τ) (r : ρ), owners[t]? = some r → holds r t

/-- A table that names exactly the holders. -/
def Exact (owners : BTreeMap τ ρ) (holds : ρ → τ → Prop) : Prop :=
  ∀ (t : τ) (r : ρ), owners[t]? = some r ↔ holds r t

/-- No tuple is held by two records. -/
def Exclusive (holds : ρ → τ → Prop) : Prop :=
  ∀ t r r', holds r t → holds r' t → r = r'

omit [LawfulEqOrd τ] in
theorem Exact.sound {owners : BTreeMap τ ρ} {holds : ρ → τ → Prop} (exact : Exact owners holds) :
    Sound owners holds :=
  fun t r => (exact t r).mp

omit [LawfulEqOrd τ] in
theorem Exact.exclusive {owners : BTreeMap τ ρ} {holds : ρ → τ → Prop}
    (exact : Exact owners holds) : Exclusive holds := by
  intro t r r' left right
  have first := (exact t r).mpr left
  rw [(exact t r').mpr right] at first
  exact (Option.some.inj first).symm

/-- The releases and claims that lead from one relation to another. -/
structure Transfer (old new : ρ → τ → Prop) (releases : BTreeMap τ ρ) (claims : List (τ × ρ)) :
    Prop where
  released : ∀ (t : τ) (r : ρ), releases[t]? = some r ↔ old r t ∧ ¬new r t
  claimed : ∀ t r, (t, r) ∈ claims ↔ new r t ∧ ¬old r t

/-- Claims that contradict neither each other nor an owner who stays. -/
structure Compatible (owners releases : BTreeMap τ ρ) (claims : List (τ × ρ)) : Prop where
  functional : ∀ t r r', (t, r) ∈ claims → (t, r') ∈ claims → r = r'
  vacated : ∀ t r o, (t, r) ∈ claims → owners[t]? = some o → o = r ∨ releases[t]? = some o

omit [LawfulEqOrd τ] in
theorem Compatible.mono {owners releases : BTreeMap τ ρ} {few many : List (τ × ρ)}
    (compatible : Compatible owners releases many) (within : few ⊆ many) :
    Compatible owners releases few :=
  ⟨fun t r r' first second => compatible.functional t r r' (within first) (within second),
    fun t r o member => compatible.vacated t r o (within member)⟩

/-- Compatible claims, and releases by the owners only. -/
structure Admissible (owners releases : BTreeMap τ ρ) (claims : List (τ × ρ)) : Prop extends
    Compatible owners releases claims where
  authorised : ∀ (t : τ) (o : ρ), releases[t]? = some o → owners[t]? = some o

/-- Erase what is released, then enter what is claimed. -/
def settle (owners releases : BTreeMap τ ρ) (claims : List (τ × ρ)) : BTreeMap τ ρ :=
  claims.foldl (fun owners entry => owners.insert entry.1 entry.2)
    (releases.keys.foldl (fun owners t => owners.erase t) owners)

theorem get_foldl_claims {claims : List (τ × ρ)} {t : τ} {r : ρ} (owners : BTreeMap τ ρ)
    (functional : ∀ r', (t, r') ∈ claims → r' = r) (member : (t, r) ∈ claims) :
    (claims.foldl (fun owners entry => owners.insert entry.1 entry.2) owners)[t]? = some r := by
  induction claims generalizing owners with
  | nil => cases member
  | cons entry rest ih =>
    by_cases later : (t, r) ∈ rest
    · exact ih _ (fun r' among => functional r' (List.mem_cons_of_mem _ among)) later
    · have here : entry = (t, r) := by simpa [later, eq_comm] using member
      have absent : t ∉ rest.map Prod.fst := by
        intro listed
        obtain ⟨⟨t', r'⟩, among, same⟩ := List.mem_map.mp listed
        obtain rfl : t' = t := same
        rw [functional r' (List.mem_cons_of_mem _ among)] at among
        exact later among
      rw [List.foldl_cons, get_foldl_insert_of_not_mem Prod.fst Prod.snd _ absent, here,
        get_insert_self]

section Settle

variable {owners releases : BTreeMap τ ρ} {claims : List (τ × ρ)} {old new : ρ → τ → Prop}

theorem settle_claimed (admissible : Admissible owners releases claims) {t : τ} {r : ρ}
    (member : (t, r) ∈ claims) : (settle owners releases claims)[t]? = some r :=
  get_foldl_claims _ (fun r' among => admissible.functional t r' r among member) member

theorem settle_kept {t : τ} (unclaimed : ∀ r, (t, r) ∉ claims) (kept : releases[t]? = none) :
    (settle owners releases claims)[t]? = owners[t]? := by
  classical
  have absent : t ∉ claims.map Prod.fst := by
    intro listed
    obtain ⟨⟨t', r⟩, among, same⟩ := List.mem_map.mp listed
    obtain rfl : t' = t := same
    exact unclaimed r among
  have unreleased : t ∉ releases.keys := by
    rw [ExtTreeMap.mem_keys, not_mem_iff_get]
    exact kept
  rw [settle, get_foldl_insert_of_not_mem Prod.fst Prod.snd _ absent, get_foldl_erase,
    if_neg unreleased]

theorem settle_erased {t : τ} {o : ρ} (unclaimed : ∀ r, (t, r) ∉ claims)
    (released : releases[t]? = some o) : (settle owners releases claims)[t]? = none := by
  classical
  have absent : t ∉ claims.map Prod.fst := by
    intro listed
    obtain ⟨⟨t', r⟩, among, same⟩ := List.mem_map.mp listed
    obtain rfl : t' = t := same
    exact unclaimed r among
  have listed : t ∈ releases.keys := by
    rw [ExtTreeMap.mem_keys, mem_iff_get]
    exact ⟨o, released⟩
  rw [settle, get_foldl_insert_of_not_mem Prod.fst Prod.snd _ absent, get_foldl_erase,
    if_pos listed]

/-- A settled table names a holder it named before, or one that is new. -/
theorem settle_get (sound : Sound owners old) (transfer : Transfer old new releases claims)
    (admissible : Admissible owners releases claims) (t : τ) (r : ρ) :
    (settle owners releases claims)[t]? = some r ↔
      new r t ∧ (owners[t]? = some r ∨ ¬old r t) := by
  by_cases claimed : ∃ r', (t, r') ∈ claims
  · obtain ⟨r', member⟩ := claimed
    have here := (transfer.claimed t r').mp member
    rw [settle_claimed admissible member, Option.some.injEq]
    constructor
    · rintro rfl
      exact ⟨here.1, .inr here.2⟩
    · rintro ⟨holds, owned | fresh⟩
      · rcases admissible.vacated t r' r member owned with same | released
        · exact same.symm
        · exact absurd holds ((transfer.released t r).mp released).2
      · exact admissible.functional t r' r member ((transfer.claimed t r).mpr ⟨holds, fresh⟩)
  · have unclaimed : ∀ r, (t, r) ∉ claims := fun r' member => claimed ⟨r', member⟩
    have old_of_new : new r t → old r t := fun holds =>
      by_contra fun fresh => unclaimed r ((transfer.claimed t r).mpr ⟨holds, fresh⟩)
    cases released : releases[t]? with
    | some o =>
      rw [settle_erased unclaimed released]
      constructor
      · intro impossible
        cases impossible
      · rintro ⟨holds, owned | fresh⟩
        · have authorised := admissible.authorised t o released
          rw [owned, Option.some.injEq] at authorised
          rw [← authorised] at released
          exact absurd holds ((transfer.released t r).mp released).2
        · exact absurd (old_of_new holds) fresh
    | none =>
      rw [settle_kept unclaimed released]
      constructor
      · intro owned
        refine ⟨by_contra fun left => ?_, .inl owned⟩
        have := (transfer.released t r).mpr ⟨sound t r owned, left⟩
        rw [released] at this
        cases this
      · rintro ⟨holds, owned | fresh⟩
        · exact owned
        · exact absurd (old_of_new holds) fresh

theorem settle_exact (exact : Exact owners old) (transfer : Transfer old new releases claims)
    (admissible : Admissible owners releases claims) :
    Exact (settle owners releases claims) new := by
  intro t r
  rw [settle_get exact.sound transfer admissible, exact t r]
  exact and_iff_left (Classical.em _)

/-- Over an exact table, the claims are admissible exactly when no tuple gets two holders. -/
theorem admissible_iff_exclusive (exact : Exact owners old)
    (transfer : Transfer old new releases claims) :
    Admissible owners releases claims ↔ Exclusive new := by
  constructor
  · exact fun admissible => (settle_exact exact transfer admissible).exclusive
  · intro exclusive
    refine ⟨⟨?_, ?_⟩, ?_⟩
    · intro t r r' first second
      exact exclusive t r r' ((transfer.claimed t r).mp first).1
        ((transfer.claimed t r').mp second).1
    · intro t r o member owned
      by_cases stays : new o t
      · exact .inl (exclusive t o r stays ((transfer.claimed t r).mp member).1)
      · exact .inr ((transfer.released t o).mpr ⟨(exact t o).mp owned, stays⟩)
    · intro t o released
      exact (exact t o).mpr ((transfer.released t o).mp released).1

end Settle

end Ownership
