import Fireweed.QueuePlanner.UniqueEffects

/-!
# Streaming unique ownership

Evidence about the owners of unique tuples arrives in any order, grouped by tuple.
A reducer per tuple keeps only the first claimant, the first administrative
claimant and three flags. Against the batch check, which collects all releases and
claims, it reports the same conflicts, and it names the owner that the batch
settles on.
-/

namespace QueueUniqueStream

open BTree Checked List Ownership QueueContract QueueFields QueuePlanner Std

inductive UniqueClaimOrigin where
  | administrative
  | ordinary
deriving DecidableEq, Repr

inductive UniqueEvidenceEffect where
  | observe
  | release (owner : RecordIdentity)
  | claim (owner : RecordIdentity) (origin : UniqueClaimOrigin)
deriving DecidableEq

structure UniqueEvidence where
  tuple : UniqueIdentity
  initialLoaded : Bool
  initialOwner : Option RecordIdentity
  effect : UniqueEvidenceEffect

structure UniqueTupleDecision where
  administrativeCollision : Bool
  finalCollision : Bool
deriving DecidableEq, Repr

/-- The buffer charge of a retained owner. -/
def ownerBytes (owner : RecordIdentity) : Nat :=
  (owner.key.utf8ByteSize + (owner.collection.map String.utf8ByteSize).getD 0) * 4 + 1024

/-- Charge a copy of an owner to the reservation; the rest of its capacity is returned. -/
def retainedOwnerCopy (owner : RecordIdentity) (free : Nat) : QueueResult Nat := do
  rejectIf (decide (2 ^ 64 ≤ ownerBytes owner)) (unknown "unique owner allocation overflow")
  rejectIf (decide (free < ownerBytes owner))
    (unknown "admitted buffer capacity exhausted; resolve owned operation")
  .ok (free - ownerBytes owner)

/-- `free` is what the reservation still admits. -/
structure UniqueTupleReducer where
  tuple : UniqueIdentity
  initialOwner : Option RecordIdentity
  free : Nat
  released : Bool
  claimant : Option RecordIdentity
  administrativeClaimant : Option RecordIdentity
  administrativeCollision : Bool
  finalCollision : Bool
  poisoned : Bool

namespace UniqueTupleReducer

def new (tuple : UniqueIdentity) (initialLoaded : Bool) (initialOwner : Option RecordIdentity)
    (free : Nat) : QueueResult UniqueTupleReducer := do
  rejectIf (!initialLoaded || initialOwner.any fun owner => owner.collection != tuple.collection)
    (unknown "unique tuple initial authority invalid")
  .ok {
    tuple := tuple
    initialOwner := initialOwner
    free := free
    released := false
    claimant := none
    administrativeClaimant := none
    administrativeCollision := false
    finalCollision := false
    poisoned := false }

def claimBy (reducer : UniqueTupleReducer) (owner : RecordIdentity) :
    QueueResult Unit × UniqueTupleReducer :=
  match reducer.claimant with
  | some first =>
    (.ok (), { reducer with finalCollision := reducer.finalCollision || first != owner })
  | none =>
    match retainedOwnerCopy owner reducer.free with
    | .ok free => (.ok (), { reducer with claimant := some owner, free := free })
    | .error e => (.error e, reducer)

def claimAdministratively (reducer : UniqueTupleReducer) (owner : RecordIdentity) :
    QueueResult Unit × UniqueTupleReducer :=
  match reducer.administrativeClaimant with
  | some first =>
    (.ok (), { reducer with
      administrativeCollision := reducer.administrativeCollision || first != owner })
  | none =>
    match retainedOwnerCopy owner reducer.free with
    | .ok free => (.ok (), { reducer with administrativeClaimant := some owner, free := free })
    | .error e => (.error e, reducer)

def observeChecked (reducer : UniqueTupleReducer) (evidence : UniqueEvidence) :
    QueueResult Unit × UniqueTupleReducer :=
  if evidence.tuple != reducer.tuple || !evidence.initialLoaded ||
      evidence.initialOwner != reducer.initialOwner then
    (.error (unknown "contradictory unique tuple initial authority"), reducer)
  else
    match evidence.effect with
    | .observe => (.ok (), reducer)
    | .release owner =>
      if reducer.initialOwner != some owner || owner.collection != reducer.tuple.collection then
        (.error (unknown "released tuple lacks exact initial owner"), reducer)
      else (.ok (), { reducer with released := true })
    | .claim owner origin =>
      if owner.collection != reducer.tuple.collection ||
          (origin == .administrative && owner.collection.isSome) then
        (.error (unknown "unique claimant collection mismatch"), reducer)
      else
        match reducer.claimBy owner with
        | (.error e, reducer) => (.error e, reducer)
        | (.ok (), reducer) =>
          if origin = .administrative then reducer.claimAdministratively owner
          else (.ok (), reducer)

/-- An error leaves the reducer poisoned. -/
def observe (reducer : UniqueTupleReducer) (evidence : UniqueEvidence) :
    QueueResult Unit × UniqueTupleReducer :=
  if reducer.poisoned then (.error (unknown "unique tuple reducer poisoned"), reducer)
  else
    match observeChecked { reducer with poisoned := true } evidence with
    | (.ok (), reducer) => (.ok (), { reducer with poisoned := false })
    | (.error e, reducer) => (.error e, reducer)

def finishWith (reducer : UniqueTupleReducer)
    (callback : Option RecordIdentity → QueueResult Unit) : QueueResult UniqueTupleDecision := do
  rejectIf reducer.poisoned (unknown "poisoned unique tuple cannot finish")
  let blockedByInitial := reducer.claimant.any fun claimant =>
    reducer.initialOwner.any fun owner => owner != claimant && !reducer.released
  let decision : UniqueTupleDecision :=
    ⟨reducer.administrativeCollision, reducer.finalCollision || blockedByInitial⟩
  if decision.administrativeCollision || decision.finalCollision then .ok decision
  else do
    callback (reducer.claimant.or (if reducer.released then none else reducer.initialOwner))
    .ok decision

end UniqueTupleReducer

/-! ## Runs -/

/-- Evidence about one tuple, without the authority it was drawn from. -/
structure UniqueEvent where
  tuple : UniqueIdentity
  effect : UniqueEvidenceEffect
deriving DecidableEq

def UniqueEvent.evidence (initial : RecordSnapshot) (event : UniqueEvent) : UniqueEvidence :=
  ⟨event.tuple, initial.uniqueProbesLoaded.contains event.tuple,
    initial.uniqueOwners[event.tuple]?, event.effect⟩

/-- One step of a run that stops at the first error. -/
def step (initial : RecordSnapshot) (reducer : UniqueTupleReducer) (event : UniqueEvent) :
    QueueResult UniqueTupleReducer :=
  match reducer.observe (event.evidence initial) with
  | (.ok (), reducer) => .ok reducer
  | (.error e, _) => .error e

/-- A reducer over the evidence of one tuple. -/
def reduce (initial : RecordSnapshot) (free : Nat) (events : List UniqueEvent)
    (tuple : UniqueIdentity) (callback : Option RecordIdentity → QueueResult Unit) :
    QueueResult UniqueTupleDecision := do
  let reducer ← UniqueTupleReducer.new tuple (initial.uniqueProbesLoaded.contains tuple)
    initial.uniqueOwners[tuple]? free
  let reducer ← (events.filter fun event => event.tuple = tuple).foldlM (step initial) reducer
  reducer.finishWith callback

def collectRelease (releases : BTreeMap UniqueIdentity RecordIdentity) (event : UniqueEvent) :
    BTreeMap UniqueIdentity RecordIdentity :=
  match event.effect with
  | .release owner => releases.insert event.tuple owner
  | _ => releases

/-- The batch of the same releases and claims. -/
def batch (events : List UniqueEvent) : UniqueFieldEffects where
  releases := events.foldl collectRelease ∅
  claims := events.filterMap fun event =>
    match event.effect with
    | .claim owner _ => some (event.tuple, owner)
    | _ => none

/-! ## The first of several claimants -/

section FirstClaim

variable {ρ : Type}

/-- `first` is one of the claimants if there are any, and `clash` says that there are two. -/
structure FirstOf (first : Option ρ) (clash : Bool) (claimed : ρ → Prop) : Prop where
  among : ∀ a, first = some a → claimed a
  nobody : first = none → ∀ a, ¬claimed a
  clash : clash = true ↔ ∃ a b, claimed a ∧ claimed b ∧ a ≠ b

theorem FirstOf.none : FirstOf (none : Option ρ) false fun _ => False where
  among := by simp
  nobody := by simp
  clash := by simp

variable {claimed : ρ → Prop} {clash : Bool}

theorem FirstOf.congr {first : Option ρ} {claimed' : ρ → Prop} (holds : FirstOf first clash claimed)
    (same : ∀ a, claimed a ↔ claimed' a) : FirstOf first clash claimed' := by
  have equal : claimed = claimed' := funext fun a => propext (same a)
  exact equal ▸ holds

/-- The first claim is kept. -/
theorem FirstOf.start (holds : FirstOf Option.none clash claimed) (owner : ρ) :
    FirstOf (some owner) clash fun a => claimed a ∨ a = owner where
  among a here := .inr (Option.some.inj here).symm
  nobody none := nomatch none
  clash := by
    have empty := holds.nobody rfl
    rw [holds.clash]
    constructor
    · rintro ⟨a, b, claimedA, -, -⟩
      exact absurd claimedA (empty a)
    · rintro ⟨a, b, claimedA | rfl, claimedB | rfl, differ⟩
      · exact absurd claimedA (empty a)
      · exact absurd claimedA (empty a)
      · exact absurd claimedB (empty b)
      · exact absurd rfl differ

/-- A later claim is compared with the first one only. -/
theorem FirstOf.later [DecidableEq ρ] {first : ρ} (holds : FirstOf (some first) clash claimed)
    (owner : ρ) :
    FirstOf (some first) (clash || first != owner) fun a => claimed a ∨ a = owner where
  among a here := .inl (holds.among a here)
  nobody none := nomatch none
  clash := by
    have head := holds.among first rfl
    rw [Bool.or_eq_true, holds.clash, bne_iff_ne]
    constructor
    · rintro (⟨a, b, claimedA, claimedB, differ⟩ | differ)
      · exact ⟨a, b, .inl claimedA, .inl claimedB, differ⟩
      · exact ⟨first, owner, .inl head, .inr rfl, differ⟩
    · rintro ⟨a, b, claimedA, claimedB, differ⟩
      by_cases same : first = owner
      · subst same
        left
        refine ⟨a, b, ?_, ?_, differ⟩
        · rcases claimedA with claimedA | rfl
          · exact claimedA
          · exact head
        · rcases claimedB with claimedB | rfl
          · exact claimedB
          · exact head
      · exact .inr same

end FirstClaim

/-! ## What the evidence says -/

def Claimed (events : List UniqueEvent) (tuple : UniqueIdentity) (owner : RecordIdentity) : Prop :=
  ∃ origin, ⟨tuple, .claim owner origin⟩ ∈ events

def ClaimedAdministratively (events : List UniqueEvent) (tuple : UniqueIdentity)
    (owner : RecordIdentity) : Prop :=
  ⟨tuple, .claim owner .administrative⟩ ∈ events

def Released (events : List UniqueEvent) (tuple : UniqueIdentity) : Prop :=
  ∃ owner, ⟨tuple, .release owner⟩ ∈ events

/-- Every release of the tuple names its initial owner. -/
def Authorised (initial : RecordSnapshot) (events : List UniqueEvent) (tuple : UniqueIdentity) :
    Prop :=
  ∀ owner, ⟨tuple, .release owner⟩ ∈ events → initial.uniqueOwners[tuple]? = some owner

/-- Evidence as its producers build it: the tuples are loaded, a tuple belongs to the collection of
its owners, administration concerns work only, and any two claimants can be admitted at once. -/
structure Grounded (initial : RecordSnapshot) (free : Nat) (events : List UniqueEvent) : Prop where
  loaded : ∀ event ∈ events, event.tuple ∈ initial.uniqueProbesLoaded
  owned : ∀ (t : UniqueIdentity) (o : RecordIdentity), initial.uniqueOwners[t]? = some o →
    o.collection = t.collection
  claims : ∀ t o, Claimed events t o → o.collection = t.collection
  work : ∀ t o, ClaimedAdministratively events t o → o.collection = none
  capacity : free < 2 ^ 64
  admitted : ∀ t a b, Claimed events t a → Claimed events t b → ownerBytes a + ownerBytes b ≤ free

def chargeOf (owner : Option RecordIdentity) : Nat := (owner.map ownerBytes).getD 0

/-- What a reducer knows: whether the tuple was released, who claimed it and who did so
administratively. Its charges are those of the claimants it retains. -/
structure Knows (initial : RecordSnapshot) (free : Nat) (t : UniqueIdentity) (poisoned : Bool)
    (released : Prop) (claimed administrative : RecordIdentity → Prop)
    (reducer : UniqueTupleReducer) : Prop where
  tuple : reducer.tuple = t
  initialOwner : reducer.initialOwner = initial.uniqueOwners[t]?
  poison : reducer.poisoned = poisoned
  release : reducer.released = true ↔ released
  claimant : FirstOf reducer.claimant reducer.finalCollision claimed
  administrator :
    FirstOf reducer.administrativeClaimant reducer.administrativeCollision administrative
  within : ∀ a, administrative a → claimed a
  charged :
    reducer.free + chargeOf reducer.claimant + chargeOf reducer.administrativeClaimant = free

/-- What a reducer knows after the evidence it has seen. -/
def Summary (initial : RecordSnapshot) (free : Nat) (t : UniqueIdentity)
    (seen : List UniqueEvent) (reducer : UniqueTupleReducer) : Prop :=
  Knows initial free t false (Released seen t) (Claimed seen t) (ClaimedAdministratively seen t)
    reducer

open UniqueEvent

section Append

variable {seen : List UniqueEvent} {t : UniqueIdentity}

theorem claimed_append (effect : UniqueEvidenceEffect) (a : RecordIdentity) :
    Claimed (seen ++ [⟨t, effect⟩]) t a ↔
      Claimed seen t a ∨ ∃ origin, effect = .claim a origin := by
  simp only [Claimed, mem_append, mem_singleton, mk.injEq, true_and, exists_or, eq_comm]

theorem claimedAdministratively_append (effect : UniqueEvidenceEffect) (a : RecordIdentity) :
    ClaimedAdministratively (seen ++ [⟨t, effect⟩]) t a ↔
      ClaimedAdministratively seen t a ∨ effect = .claim a .administrative := by
  simp only [ClaimedAdministratively, mem_append, mem_singleton, mk.injEq, true_and, eq_comm]

theorem released_append (effect : UniqueEvidenceEffect) :
    Released (seen ++ [⟨t, effect⟩]) t ↔ Released seen t ∨ ∃ owner, effect = .release owner := by
  simp only [Released, mem_append, mem_singleton, mk.injEq, true_and, exists_or, eq_comm]

end Append

/-! ## One step -/

variable {owner : RecordIdentity} {effect : UniqueEvidenceEffect}

section Step

variable {initial : RecordSnapshot} {free : Nat} {t : UniqueIdentity} {poisoned : Bool}
  {released : Prop} {claimed administrative : RecordIdentity → Prop} {reducer : UniqueTupleReducer}

theorem retainedOwnerCopy_eq {available : Nat} (fits : ownerBytes owner ≤ available)
    (small : available < 2 ^ 64) :
    retainedOwnerCopy owner available = .ok (available - ownerBytes owner) := by
  have width : ¬2 ^ 64 ≤ ownerBytes owner := by omega
  have room : ¬available < ownerBytes owner := by omega
  simp only [retainedOwnerCopy, rejectIf, width, room, decide_false, Bool.false_eq_true, if_false,
    ok_bind]

section

variable (knows : Knows initial free t poisoned released claimed administrative reducer)

include knows

/-- Without a claimant nothing is charged yet. -/
theorem Knows.all_free (nobody : reducer.claimant = none) :
    reducer.administrativeClaimant = none ∧ reducer.free = free := by
  have first := knows.claimant
  rw [nobody] at first
  have none : reducer.administrativeClaimant = none := by
    cases found : reducer.administrativeClaimant with
    | none => rfl
    | some a =>
      exact absurd (knows.within a (knows.administrator.among a found)) (first.nobody rfl a)
  have total := knows.charged
  rw [nobody, none] at total
  exact ⟨none, by simpa [chargeOf] using total⟩

theorem Knows.claimBy (capacity : free < 2 ^ 64) (owner : RecordIdentity)
    (alone : ownerBytes owner ≤ free) :
    ∃ reducer', reducer.claimBy owner = (.ok (), reducer') ∧
      Knows initial free t poisoned released (fun a => claimed a ∨ a = owner) administrative
        reducer' := by
  have first := knows.claimant
  cases found : reducer.claimant with
  | some a =>
    rw [found] at first
    refine ⟨_, by rw [UniqueTupleReducer.claimBy, found], ?_⟩
    exact { knows with
      claimant := by simpa [found] using first.later owner
      within := fun b holds => .inl (knows.within b holds)
      charged := by simpa [found] using knows.charged }
  | none =>
    rw [found] at first
    obtain ⟨none, whole⟩ := knows.all_free found
    have copied := retainedOwnerCopy_eq (whole ▸ alone) (whole ▸ capacity)
    refine ⟨{ reducer with
      claimant := some owner
      free := reducer.free - ownerBytes owner }, ?_, ?_⟩
    · simp only [UniqueTupleReducer.claimBy, found, copied]
    · exact { knows with
        claimant := first.start owner
        within := fun b holds => .inl (knows.within b holds)
        charged := by
          simp only [none, chargeOf, Option.map_some, Option.map_none, Option.getD_some,
            Option.getD_none]
          omega }

theorem Knows.claimAdministratively (capacity : free < 2 ^ 64) (owner : RecordIdentity)
    (among : claimed owner) (room : ∀ a, claimed a → ownerBytes a + ownerBytes owner ≤ free) :
    ∃ reducer', reducer.claimAdministratively owner = (.ok (), reducer') ∧
      Knows initial free t poisoned released claimed (fun a => administrative a ∨ a = owner)
        reducer' := by
  have within : ∀ a, (administrative a ∨ a = owner) → claimed a := by
    rintro a (holds | rfl)
    · exact knows.within a holds
    · exact among
  have first := knows.administrator
  cases found : reducer.administrativeClaimant with
  | some a =>
    rw [found] at first
    refine ⟨_, by rw [UniqueTupleReducer.claimAdministratively, found], ?_⟩
    exact { knows with
      administrator := by simpa [found] using first.later owner
      within := within
      charged := by simpa [found] using knows.charged }
  | none =>
    rw [found] at first
    cases retained : reducer.claimant with
    | none => exact absurd among ((retained ▸ knows.claimant).nobody rfl owner)
    | some a =>
      have both := room a (knows.claimant.among a retained)
      have total := knows.charged
      rw [found, retained] at total
      simp only [chargeOf, Option.map_some, Option.map_none, Option.getD_some,
        Option.getD_none] at total
      have copied : retainedOwnerCopy owner reducer.free =
          .ok (reducer.free - ownerBytes owner) :=
        retainedOwnerCopy_eq (by omega) (by omega)
      refine ⟨{ reducer with
        administrativeClaimant := some owner
        free := reducer.free - ownerBytes owner }, ?_, ?_⟩
      · simp only [UniqueTupleReducer.claimAdministratively, found, copied]
      · exact { knows with
          administrator := first.start owner
          within := within
          charged := by
            simp only [retained, chargeOf, Option.map_some, Option.getD_some]
            omega }

end

/-- The evidence a reducer accepts about its tuple. -/
def Accepts (initial : RecordSnapshot) (t : UniqueIdentity) : UniqueEvidenceEffect → Prop
  | .observe => True
  | .release owner => initial.uniqueOwners[t]? = some owner
  | .claim _ _ => True

end Step

open UniqueTupleReducer

section Run

variable {initial : RecordSnapshot} {free : Nat} {t : UniqueIdentity} {seen : List UniqueEvent}
  {events : List UniqueEvent} {reducer : UniqueTupleReducer}

/-- Evidence that names another releaser is refused. -/
theorem step_refused (summary : Summary initial free t seen reducer)
    (loaded : t ∈ initial.uniqueProbesLoaded) (other : initial.uniqueOwners[t]? ≠ some owner) :
    step initial reducer ⟨t, .release owner⟩ =
      .error (unknown "released tuple lacks exact initial owner") := by
  have present := ExtTreeSet.contains_iff_mem.mpr loaded
  simp [step, observe, observeChecked, evidence,
    summary.poison, summary.tuple, summary.initialOwner, present, other]

theorem step_of_checked (healthy : reducer.poisoned = false) {event : UniqueEvent}
    (reducer' : UniqueTupleReducer)
    (checked : observeChecked { reducer with poisoned := true }
      (event.evidence initial) = (.ok (), reducer')) :
    step initial reducer event = .ok { reducer' with poisoned := false } := by
  simp [step, observe, healthy, checked]

/-- A reducer that knows as much as the evidence says, after the error flag is cleared. -/
theorem Knows.summary {released : Prop} {claimed administrative : RecordIdentity → Prop}
    (knows : Knows initial free t true released claimed administrative reducer)
    (releases : released ↔ Released seen t) (claims : ∀ a, claimed a ↔ Claimed seen t a)
    (administrators : ∀ a, administrative a ↔ ClaimedAdministratively seen t a) :
    Summary initial free t seen { reducer with poisoned := false } where
  tuple := knows.tuple
  initialOwner := knows.initialOwner
  poison := rfl
  release := knows.release.trans releases
  claimant := knows.claimant.congr claims
  administrator := knows.administrator.congr administrators
  within a holds := (claims a).mp (knows.within a ((administrators a).mpr holds))
  charged := knows.charged

/-- Accepted evidence is added to what the reducer knows. -/
theorem step_accepted (summary : Summary initial free t seen reducer)
    (grounded : Grounded initial free events) (within : seen ++ [⟨t, effect⟩] ⊆ events)
    (accepts : Accepts initial t effect) :
    ∃ reducer', step initial reducer ⟨t, effect⟩ = .ok reducer' ∧
      Summary initial free t (seen ++ [⟨t, effect⟩]) reducer' := by
  have here : (⟨t, effect⟩ : UniqueEvent) ∈ events := within (by simp)
  have present := ExtTreeSet.contains_iff_mem.mpr (grounded.loaded _ here)
  have armed : Knows initial free t true (Released seen t) (Claimed seen t)
      (ClaimedAdministratively seen t) { reducer with poisoned := true } :=
    { summary with poison := rfl }
  have same := summary.tuple
  have owner := summary.initialOwner
  cases effect with
  | observe =>
    refine ⟨_, step_of_checked summary.poison { reducer with poisoned := true } ?_,
      armed.summary ?_ (fun a => ?_) fun a => ?_⟩
    · simp [observeChecked, evidence, same, owner, present]
    · simp [released_append]
    · simp [claimed_append]
    · simp [claimedAdministratively_append]
  | release o =>
    have collection : o.collection = t.collection := grounded.owned t o accepts
    have freed : Knows initial free t true True (Claimed seen t) (ClaimedAdministratively seen t)
        { reducer with poisoned := true, released := true } :=
      { armed with release := by simp }
    refine ⟨_, step_of_checked summary.poison
      { reducer with poisoned := true, released := true } ?_,
      freed.summary ?_ (fun a => ?_) fun a => ?_⟩
    · have named : initial.uniqueOwners[t]? = some o := accepts
      simp [observeChecked, evidence, same, owner, present, named, collection]
    · simp [released_append]
    · simp [claimed_append]
    · simp [claimedAdministratively_append]
  | claim o origin =>
    have mine : Claimed events t o := ⟨origin, here⟩
    have earlier : ∀ a, Claimed seen t a → Claimed events t a := by
      rintro a ⟨origin', member⟩
      exact ⟨origin', within (mem_append_left _ member)⟩
    have collection : o.collection = t.collection := grounded.claims t o mine
    obtain ⟨claimed, noted, knows⟩ := armed.claimBy grounded.capacity o
      (by have both := grounded.admitted t o o mine mine; omega)
    rw [same, owner] at noted
    cases origin with
    | ordinary =>
      refine ⟨_, step_of_checked summary.poison claimed ?_,
        knows.summary ?_ (fun a => ?_) fun a => ?_⟩
      · simp [observeChecked, evidence, same, owner, present, collection, noted]
      · simp [released_append]
      · simp [claimed_append, eq_comm]
      · simp [claimedAdministratively_append]
    | administrative =>
      have work : o.collection = none := grounded.work t o here
      obtain ⟨claimed', noted', knows'⟩ := knows.claimAdministratively grounded.capacity
        o (.inr rfl) (by
          rintro a (before | rfl)
          · exact grounded.admitted t a o (earlier a before) mine
          · exact grounded.admitted t a a mine mine)
      refine ⟨_, step_of_checked summary.poison claimed' ?_,
        knows'.summary ?_ (fun a => ?_) fun a => ?_⟩
      · have unnamed : t.collection = none := collection ▸ work
        simp [observeChecked, evidence, same, owner, present, work, unnamed, noted, noted']
      · simp [released_append]
      · simp [claimed_append, eq_comm]
      · simp [claimedAdministratively_append, eq_comm]

/-- A run over the evidence of one tuple succeeds exactly when every release names the owner. -/
theorem run_summary (grounded : Grounded initial free events)
    (loaded : t ∈ initial.uniqueProbesLoaded) (rest : List UniqueEvent)
    (mine : ∀ event ∈ rest, event.tuple = t) (within : seen ++ rest ⊆ events)
    (start : Summary initial free t seen reducer) :
    ((∀ event ∈ rest, Accepts initial t event.effect) →
      ∃ final, rest.foldlM (step initial) reducer = .ok final ∧
        Summary initial free t (seen ++ rest) final) ∧
    ((∃ event ∈ rest, ¬Accepts initial t event.effect) → rest.foldlM (step initial) reducer =
      .error (unknown "released tuple lacks exact initial owner")) := by
  induction rest generalizing seen reducer with
  | nil => exact ⟨fun _ => ⟨reducer, rfl, by simpa using start⟩, by simp⟩
  | cons event rest ih =>
    obtain ⟨tuple, effect⟩ := event
    obtain rfl : tuple = t := mine _ mem_cons_self
    have others : ∀ event ∈ rest, event.tuple = tuple :=
      fun event member => mine event (mem_cons_of_mem _ member)
    rw [foldlM_cons]
    by_cases accepts : Accepts initial tuple effect
    · have regrouped : seen ++ ⟨tuple, effect⟩ :: rest = seen ++ [⟨tuple, effect⟩] ++ rest := by
        simp
      rw [regrouped] at within
      obtain ⟨next, taken, summary⟩ := step_accepted start grounded
        (fun event member => within (mem_append_left _ member)) accepts
      obtain ⟨succeeds, fails⟩ := ih others within summary
      rw [taken, ok_bind, regrouped]
      constructor
      · exact fun all => succeeds fun event member => all event (mem_cons_of_mem _ member)
      · rintro ⟨event, member, refused⟩
        rcases mem_cons.mp member with rfl | later
        · exact absurd accepts refused
        · exact fails ⟨event, later, refused⟩
    · refine ⟨fun all => absurd (all _ mem_cons_self) accepts, fun _ => ?_⟩
      cases effect with
      | release owner =>
        rw [step_refused start loaded accepts]
        rfl
      | observe => exact absurd trivial accepts
      | claim owner origin => exact absurd trivial accepts

end Run

/-! ## Decisions -/

variable {reducer : UniqueTupleReducer}

section Decisions

variable {initial : RecordSnapshot} {free : Nat} {t : UniqueIdentity} {events : List UniqueEvent}

/-- Two claimants, or a claimant besides an owner who stays. -/
def Conflict (initial : RecordSnapshot) (events : List UniqueEvent) (t : UniqueIdentity) : Prop :=
  (∃ a b, Claimed events t a ∧ Claimed events t b ∧ a ≠ b) ∨
    ∃ a o, Claimed events t a ∧ initial.uniqueOwners[t]? = some o ∧ o ≠ a ∧ ¬Released events t

def AdministrativeConflict (events : List UniqueEvent) (t : UniqueIdentity) : Prop :=
  ∃ a b, ClaimedAdministratively events t a ∧ ClaimedAdministratively events t b ∧ a ≠ b

/-- The owner after the releases and claims. -/
structure OwnerIs (initial : RecordSnapshot) (events : List UniqueEvent) (t : UniqueIdentity)
    (owner : Option RecordIdentity) : Prop where
  claimed : ∀ a, Claimed events t a → owner = some a
  vacated : (∀ a, ¬Claimed events t a) → Released events t → owner = none
  kept : (∀ a, ¬Claimed events t a) → ¬Released events t → owner = initial.uniqueOwners[t]?

theorem OwnerIs.unique {owner owner' : Option RecordIdentity}
    (left : OwnerIs initial events t owner) (right : OwnerIs initial events t owner') :
    owner = owner' := by
  by_cases claimed : ∃ a, Claimed events t a
  · obtain ⟨a, claimed⟩ := claimed
    rw [left.claimed a claimed, right.claimed a claimed]
  · have nobody : ∀ a, ¬Claimed events t a := fun a holds => claimed ⟨a, holds⟩
    by_cases released : Released events t
    · rw [left.vacated nobody released, right.vacated nobody released]
    · rw [left.kept nobody released, right.kept nobody released]

/-- The first claimant is blocked by the owner exactly when some claimant is, unless two claim. -/
theorem Summary.blocked_iff (summary : Summary initial free t events reducer) :
    (reducer.finalCollision || reducer.claimant.any fun claimant =>
        reducer.initialOwner.any fun owner => owner != claimant && !reducer.released) = true ↔
      Conflict initial events t := by
  have stays : reducer.released = false ↔ ¬Released events t := by
    rw [← summary.release, Bool.not_eq_true]
  rw [Bool.or_eq_true, summary.claimant.clash, Conflict]
  simp only [Option.any_eq_true, Bool.and_eq_true, bne_iff_ne, Bool.not_eq_true',
    summary.initialOwner, stays]
  constructor
  · rintro (two | ⟨a, first, o, owned, differ, kept⟩)
    · exact .inl two
    · exact .inr ⟨a, o, summary.claimant.among a first, owned, differ, kept⟩
  · rintro (two | ⟨a, o, claimed, owned, differ, kept⟩)
    · exact .inl two
    · cases first : reducer.claimant with
      | none => exact absurd claimed (summary.claimant.nobody first a)
      | some b =>
        by_cases same : b = a
        · subst same
          exact .inr ⟨b, rfl, o, owned, differ, kept⟩
        · exact .inl ⟨b, a, summary.claimant.among b first, claimed, same⟩

/-- A reducer that has seen all evidence decides as the evidence says. -/
theorem Summary.finishWith (summary : Summary initial free t events reducer) :
    ∃ (decision : UniqueTupleDecision) (owner : Option RecordIdentity),
      (decision.administrativeCollision = true ↔ AdministrativeConflict events t) ∧
      (decision.finalCollision = true ↔ Conflict initial events t) ∧
      (decision.finalCollision = false → OwnerIs initial events t owner) ∧
      ∀ callback, reducer.finishWith callback =
        if decision.administrativeCollision || decision.finalCollision then .ok decision
        else (callback owner).map fun _ => decision := by
  refine ⟨⟨reducer.administrativeCollision, _⟩,
    reducer.claimant.or (if reducer.released then none else reducer.initialOwner),
    summary.administrator.clash, summary.blocked_iff, fun quiet => ?_, fun callback => ?_⟩
  · have alone : ¬Conflict initial events t := by
      rw [← summary.blocked_iff, Bool.not_eq_true]
      exact quiet
    refine ⟨fun a claimed => ?_, fun nobody released => ?_, fun nobody kept => ?_⟩
    · cases first : reducer.claimant with
      | none => exact absurd claimed (summary.claimant.nobody first a)
      | some b =>
        have same : b = a := by_contra fun differ =>
          alone (.inl ⟨b, a, summary.claimant.among b first, claimed, differ⟩)
        rw [same]
        rfl
    · have first : reducer.claimant = none := by
        cases first : reducer.claimant with
        | none => rfl
        | some b => exact absurd (summary.claimant.among b first) (nobody b)
      rw [first, summary.release.mpr released]
      rfl
    · have first : reducer.claimant = none := by
        cases first : reducer.claimant with
        | none => rfl
        | some b => exact absurd (summary.claimant.among b first) (nobody b)
      have stays : reducer.released = false := by
        rw [← Bool.not_eq_true, summary.release]
        exact kept
      rw [first, stays, summary.initialOwner]
      rfl
  · rw [UniqueTupleReducer.finishWith, summary.poison, map_eq_bind]
    rfl

/-- The evidence of a tuple says about it what all evidence does. -/
theorem mem_own :
    (⟨t, effect⟩ : UniqueEvent) ∈ events.filter (fun event => event.tuple = t) ↔
      ⟨t, effect⟩ ∈ events := by
  simp

theorem Summary.all
    (summary : Summary initial free t (events.filter fun event => event.tuple = t) reducer) :
    Summary initial free t events reducer :=
  { summary with
    release := by simpa only [Released, mem_own] using summary.release
    claimant := summary.claimant.congr fun a => by simp only [Claimed, mem_own]
    administrator := summary.administrator.congr fun a => by
      simp only [ClaimedAdministratively, mem_own]
    within := fun a holds => ⟨_, holds⟩ }

theorem new_eq (grounded : Grounded initial free events) (loaded : t ∈ initial.uniqueProbesLoaded) :
    ∃ start, new t (initial.uniqueProbesLoaded.contains t)
        initial.uniqueOwners[t]? free = .ok start ∧ Summary initial free t [] start := by
  have present := ExtTreeSet.contains_iff_mem.mpr loaded
  have local_ : (initial.uniqueOwners[t]?.any fun owner => owner.collection != t.collection) =
      false := by
    rw [Bool.eq_false_iff]
    intro foreign
    rw [Option.any_eq_true] at foreign
    obtain ⟨owner, owned, differ⟩ := foreign
    exact absurd (grounded.owned t owner owned) (bne_iff_ne.mp differ)
  refine ⟨_, by simp only [new, present, local_]; rfl, ?_⟩
  exact {
    tuple := rfl
    initialOwner := rfl
    poison := rfl
    release := by simp [Released]
    claimant := FirstOf.none.congr fun a => by simp [Claimed]
    administrator := FirstOf.none.congr fun a => by simp [ClaimedAdministratively]
    within := by simp [ClaimedAdministratively]
    charged := rfl }

/-- The decision of a tuple, or the error of its evidence. -/
theorem reduce_spec (grounded : Grounded initial free events)
    (loaded : t ∈ initial.uniqueProbesLoaded) :
    (Authorised initial events t →
      ∃ (decision : UniqueTupleDecision) (owner : Option RecordIdentity),
        (decision.administrativeCollision = true ↔ AdministrativeConflict events t) ∧
        (decision.finalCollision = true ↔ Conflict initial events t) ∧
        (decision.finalCollision = false → OwnerIs initial events t owner) ∧
        ∀ callback, reduce initial free events t callback =
          if decision.administrativeCollision || decision.finalCollision then .ok decision
          else (callback owner).map fun _ => decision) ∧
    (¬Authorised initial events t → ∀ callback, reduce initial free events t callback =
      .error (unknown "released tuple lacks exact initial owner")) := by
  obtain ⟨start, opened, empty⟩ := new_eq grounded loaded
  have accepted : (∀ event ∈ events.filter (fun event => event.tuple = t),
      Accepts initial t event.effect) ↔ Authorised initial events t := by
    constructor
    · exact fun all owner member => all _ (mem_own.mpr member)
    · rintro authorised ⟨tuple, effect⟩ member
      obtain rfl : tuple = t := by simpa using (mem_filter.mp member).2
      cases effect with
      | release owner => exact authorised owner (mem_own.mp member)
      | observe => trivial
      | claim owner origin => trivial
  obtain ⟨succeeds, fails⟩ := run_summary grounded loaded
    (events.filter fun event => event.tuple = t) (by simp) (by simp) empty
  constructor
  · intro authorised
    obtain ⟨final, run, summary⟩ := succeeds (accepted.mpr authorised)
    obtain ⟨decision, owner, administrative, final_, owned, finished⟩ := summary.all.finishWith
    refine ⟨decision, owner, administrative, final_, owned, fun callback => ?_⟩
    rw [reduce, opened, ok_bind, run, ok_bind, finished]
  · intro unauthorised callback
    have refused : ∃ event ∈ events.filter (fun event => event.tuple = t),
        ¬Accepts initial t event.effect := by
      by_contra all
      exact unauthorised (accepted.mp (by simpa using all))
    rw [reduce, opened, ok_bind, fails refused]
    rfl

/-! ## The batch -/

theorem mem_batch_claims (a : RecordIdentity) :
    (t, a) ∈ (batch events).claims ↔ Claimed events t a := by
  simp only [batch, mem_filterMap, Claimed]
  constructor
  · rintro ⟨⟨tuple, effect⟩, member, named⟩
    cases effect with
    | claim owner origin =>
      cases named
      exact ⟨origin, member⟩
    | observe => cases named
    | release owner => cases named
  · rintro ⟨origin, member⟩
    exact ⟨_, member, rfl⟩

theorem get_collectRelease (releases : BTreeMap UniqueIdentity RecordIdentity)
    (event : UniqueEvent) :
    (collectRelease releases event)[t]? = releases[t]? ∧ (∀ o, event ≠ ⟨t, .release o⟩) ∨
      ∃ o, event = ⟨t, .release o⟩ ∧ (collectRelease releases event)[t]? = some o := by
  obtain ⟨tuple, effect⟩ := event
  cases effect with
  | observe => exact .inl ⟨rfl, by simp⟩
  | claim owner origin => exact .inl ⟨rfl, by simp⟩
  | release owner =>
    by_cases here : tuple = t
    · subst here
      exact .inr ⟨owner, rfl, get_insert_self releases tuple owner⟩
    · exact .inl ⟨get_insert_ne releases owner here, by simp [here]⟩

/-- The releases of a tuple, when they all name one owner. -/
theorem get_foldl_releases (named : Option RecordIdentity)
    (same : ∀ o, ⟨t, .release o⟩ ∈ events → named = some o)
    (releases : BTreeMap UniqueIdentity RecordIdentity) :
    (Released events t → (events.foldl collectRelease releases)[t]? = named) ∧
      (¬Released events t → (events.foldl collectRelease releases)[t]? = releases[t]?) := by
  induction events generalizing releases with
  | nil => simp [Released]
  | cons event rest ih =>
    obtain ⟨released, kept⟩ := ih (fun o member => same o (mem_cons_of_mem _ member))
      (collectRelease releases event)
    rw [foldl_cons]
    rcases get_collectRelease (t := t) releases event with ⟨untouched, other⟩ | ⟨o, rfl, entered⟩
    · have later : Released (event :: rest) t ↔ Released rest t := by
        simp only [Released, mem_cons, fun o => (other o).symm, false_or]
      rw [later, ← untouched]
      exact ⟨released, kept⟩
    · refine ⟨fun _ => ?_, fun none => absurd ⟨o, mem_cons_self⟩ none⟩
      by_cases again : Released rest t
      · exact released again
      · rw [kept again, entered, same o mem_cons_self]

theorem get_batch_releases (authorised : Authorised initial events t) (o : RecordIdentity) :
    (batch events).releases[t]? = some o ↔
      Released events t ∧ initial.uniqueOwners[t]? = some o := by
  obtain ⟨released, kept⟩ := get_foldl_releases _ authorised ∅
  by_cases some_ : Released events t
  · rw [batch, released some_]
    simp [some_]
  · rw [batch, kept some_]
    simp [some_]

theorem admissible_iff (authorised : ∀ t, Authorised initial events t) :
    Admissible initial.uniqueOwners (batch events).releases (batch events).claims ↔
      ∀ t, ¬Conflict initial events t := by
  constructor
  · rintro admissible t (⟨a, b, first, second, differ⟩ | ⟨a, o, claimed, owned, differ, kept⟩)
    · exact differ (admissible.functional t a b ((mem_batch_claims a).mpr first)
        ((mem_batch_claims b).mpr second))
    · rcases admissible.vacated t a o ((mem_batch_claims a).mpr claimed) owned with same | released
      · exact differ same
      · exact kept ((get_batch_releases (authorised t) o).mp released).1
  · intro quiet
    refine ⟨⟨fun t a b first second => ?_, fun t a o claimed owned => ?_⟩, fun t o released => ?_⟩
    · exact by_contra fun differ => quiet t
        (.inl ⟨a, b, (mem_batch_claims a).mp first, (mem_batch_claims b).mp second, differ⟩)
    · by_cases released : Released events t
      · exact .inr ((get_batch_releases (authorised t) o).mpr ⟨released, owned⟩)
      · exact .inl (by_contra fun differ => quiet t
          (.inr ⟨a, o, (mem_batch_claims a).mp claimed, owned, differ, released⟩))
    · exact ((get_batch_releases (authorised t) o).mp released).2

theorem ownerIs_settle (authorised : Authorised initial events t)
    (quiet : ¬Conflict initial events t) :
    OwnerIs initial events t
      (settle initial.uniqueOwners (batch events).releases (batch events).claims)[t]? where
  claimed a claimed := by
    refine get_foldl_claims _ (fun b member => by_contra fun differ => ?_)
      ((mem_batch_claims a).mpr claimed)
    exact quiet (.inl ⟨b, a, (mem_batch_claims b).mp member, claimed, differ⟩)
  vacated nobody released := by
    obtain ⟨o, member⟩ := released
    exact settle_erased (fun a claimed => nobody a ((mem_batch_claims a).mp claimed))
      ((get_batch_releases authorised o).mpr ⟨⟨o, member⟩, authorised o member⟩)
  kept nobody kept := by
    refine settle_kept (fun a claimed => nobody a ((mem_batch_claims a).mp claimed)) ?_
    rw [Option.eq_none_iff_forall_ne_some]
    exact fun o released => kept ((get_batch_releases authorised o).mp released).1

theorem Conflict.loaded (conflict : Conflict initial events t)
    (grounded : Grounded initial free events) : t ∈ initial.uniqueProbesLoaded := by
  rcases conflict with ⟨a, -, ⟨origin, member⟩, -, -⟩ | ⟨a, -, ⟨origin, member⟩, -, -, -⟩
  · exact grounded.loaded _ member
  · exact grounded.loaded _ member

/-- Validation of authorised evidence answers, and reports a conflict when some tuple has one. -/
theorem validate_batch (grounded : Grounded initial free events)
    (authorised : ∀ t, Authorised initial events t) :
    ((∃ t, Conflict initial events t) →
      (batch events).validate initial = .ok (.error .uniqueConflict)) ∧
    ((∀ t, ¬Conflict initial events t) → (batch events).validate initial = .ok (.ok ())) := by
  obtain ⟨outcome, answered⟩ := validate_total (batch events) initial
    (fun t o released => by
      obtain ⟨⟨owner, member⟩, owned⟩ := (get_batch_releases (authorised t) o).mp released
      exact ⟨grounded.loaded _ member, owned⟩)
    (fun t a claimed => by
      obtain ⟨origin, member⟩ := (mem_batch_claims a).mp claimed
      exact grounded.loaded _ member)
  rw [answered]
  rcases validate_spec answered with ⟨rfl, admissible⟩ | ⟨rfl, conflicting⟩
  · rw [admissible_iff authorised] at admissible
    exact ⟨fun ⟨t, conflict⟩ => absurd conflict (admissible t), fun _ => rfl⟩
  · rw [admissible_iff authorised] at conflicting
    exact ⟨fun _ => rfl, fun quiet => absurd quiet conflicting⟩

/-! ## Order -/

/-- The decision of a tuple does not depend on the order of the evidence. -/
theorem reduce_perm {events' : List UniqueEvent} (same : events.Perm events')
    (grounded : Grounded initial free events) (loaded : t ∈ initial.uniqueProbesLoaded)
    (callback : Option RecordIdentity → QueueResult Unit) :
    reduce initial free events t callback = reduce initial free events' t callback := by
  have members : ∀ event, event ∈ events ↔ event ∈ events' := fun event => same.mem_iff
  have claims : Claimed events' = Claimed events := by
    funext t a
    simp only [Claimed, members]
  have administrators : ClaimedAdministratively events' = ClaimedAdministratively events := by
    funext t a
    simp only [ClaimedAdministratively, members]
  have releases : Released events' = Released events := by
    funext t
    simp only [Released, members]
  have authority : Authorised initial events' t = Authorised initial events t := by
    simp only [Authorised, members]
  have grounded' : Grounded initial free events' :=
    { grounded with
      loaded := fun event member => grounded.loaded event ((members event).mpr member)
      claims := claims ▸ grounded.claims
      work := administrators ▸ grounded.work
      admitted := claims ▸ grounded.admitted }
  obtain ⟨decided, refused⟩ := reduce_spec grounded loaded
  obtain ⟨decided', refused'⟩ := reduce_spec grounded' loaded
  by_cases authorised : Authorised initial events t
  · obtain ⟨d, owner, administrative, final, owned, reduced⟩ := decided authorised
    obtain ⟨d', owner', administrative', final', owned', reduced'⟩ :=
      decided' (authority ▸ authorised)
    have conflicts : Conflict initial events' t = Conflict initial events t := by
      simp only [Conflict, claims, releases]
    have decisions : d = d' := by
      obtain ⟨x, y⟩ := d
      obtain ⟨x', y'⟩ := d'
      have first : x = x' := by
        rw [Bool.eq_iff_iff, administrative, administrative', AdministrativeConflict,
          AdministrativeConflict, administrators]
      have second : y = y' := by
        rw [Bool.eq_iff_iff, final, final', conflicts]
      rw [first, second]
    subst decisions
    rw [reduced, reduced']
    cases quiet : d.finalCollision with
    | true => simp
    | false =>
      have transported : OwnerIs initial events t owner' :=
        ⟨claims ▸ (owned' quiet).claimed,
          by simpa only [claims, releases] using (owned' quiet).vacated,
          by simpa only [claims, releases] using (owned' quiet).kept⟩
      rw [(owned quiet).unique transported]
  · rw [refused authorised, refused' (authority ▸ authorised)]

end Decisions

/-! ## Poisoning -/

namespace UniqueTupleReducer

theorem claimBy_poisoned (reducer : UniqueTupleReducer) (owner : RecordIdentity) :
    (reducer.claimBy owner).2.poisoned = reducer.poisoned := by
  unfold claimBy
  split
  · rfl
  · split <;> rfl

theorem claimAdministratively_poisoned (reducer : UniqueTupleReducer) (owner : RecordIdentity) :
    (reducer.claimAdministratively owner).2.poisoned = reducer.poisoned := by
  unfold claimAdministratively
  split
  · rfl
  · split <;> rfl

theorem observeChecked_poisoned (reducer : UniqueTupleReducer) (evidence : UniqueEvidence) :
    (reducer.observeChecked evidence).2.poisoned = reducer.poisoned := by
  unfold observeChecked
  split
  · rfl
  · split
    · rfl
    · split <;> rfl
    · next owner origin _ =>
      have kept := reducer.claimBy_poisoned owner
      split
      · rfl
      · split
        · next noted => rw [noted] at kept; exact kept
        · next noted =>
          rw [noted] at kept
          split
          · rw [claimAdministratively_poisoned]
            exact kept
          · exact kept

theorem observe_error {evidence : UniqueEvidence} {e : QueueError}
    (failed : (reducer.observe evidence).1 = .error e) :
    (reducer.observe evidence).2.poisoned = true := by
  have kept := observeChecked_poisoned { reducer with poisoned := true } evidence
  unfold observe at failed ⊢
  split
  · next poisoned => exact poisoned
  · next healthy =>
    rw [if_neg healthy] at failed
    split
    · next checked =>
      rw [checked] at failed
      cases failed
    · next checked =>
      rw [checked] at kept
      exact kept

section

variable {reducer : UniqueTupleReducer} (poisoned : reducer.poisoned = true)

include poisoned

theorem observe_poisoned (evidence : UniqueEvidence) :
    reducer.observe evidence = (.error (unknown "unique tuple reducer poisoned"), reducer) := by
  rw [observe, if_pos poisoned]

/-- A poisoned reducer stays as it is. -/
theorem foldl_observe_poisoned (later : List UniqueEvidence) :
    later.foldl (fun reducer evidence => (reducer.observe evidence).2) reducer = reducer := by
  induction later with
  | nil => rfl
  | cons evidence rest ih => rw [foldl_cons, observe_poisoned poisoned, ih]

theorem finishWith_poisoned (callback : Option RecordIdentity → QueueResult Unit) :
    reducer.finishWith callback = .error (unknown "poisoned unique tuple cannot finish") := by
  rw [finishWith, poisoned]
  rfl

end

end UniqueTupleReducer

/-- One reducer per tuple against the batch check of the same releases and claims: a reducer errs
exactly when a release of its tuple names another owner than the initial one; without such a
release some tuple has a final collision exactly when the batch is a unique conflict; an
administrative collision means two administrative claimants; without a collision the callback gets
the owner the batch settles on; the order of the evidence does not matter; and after an error every
later call errs. -/
theorem reduce_agrees_with_validate {initial : RecordSnapshot} {free : Nat}
    {events : List UniqueEvent} (grounded : Grounded initial free events) :
    (∀ t ∈ initial.uniqueProbesLoaded,
      ((∃ e, reduce initial free events t (fun _ => .ok ()) = .error e) ↔
        ¬Authorised initial events t) ∧
      (Authorised initial events t → ∃ decision : UniqueTupleDecision,
        (decision.administrativeCollision = true ↔ AdministrativeConflict events t) ∧
        ∀ callback, reduce initial free events t callback =
          if decision.administrativeCollision || decision.finalCollision then .ok decision
          else (callback (settle initial.uniqueOwners (batch events).releases
            (batch events).claims)[t]?).map fun _ => decision) ∧
      ∀ events' callback, events.Perm events' →
        reduce initial free events t callback = reduce initial free events' t callback) ∧
    ((∀ t, Authorised initial events t) →
      ((∃ t ∈ initial.uniqueProbesLoaded, ∃ decision,
        reduce initial free events t (fun _ => .ok ()) = .ok decision ∧
          decision.finalCollision = true) ↔
        (batch events).validate initial = .ok (.error .uniqueConflict))) ∧
    ∀ (reducer : UniqueTupleReducer) evidence e, (reducer.observe evidence).1 = .error e →
      ∀ later : List UniqueEvidence,
        let poisoned := later.foldl (fun reducer evidence => (reducer.observe evidence).2)
          (reducer.observe evidence).2
        (∀ next, ∃ e, (poisoned.observe next).1 = .error e) ∧
          ∀ callback, ∃ e, poisoned.finishWith callback = .error e := by
  refine ⟨fun t loaded => ⟨?_, fun authorised => ?_, fun events' callback same => ?_⟩,
    fun authorised => ?_, fun reducer evidence e failed later => ?_⟩
  · obtain ⟨decided, refused⟩ := reduce_spec grounded loaded
    refine ⟨fun ⟨e, errs⟩ authorised => ?_, fun unauthorised => ⟨_, refused unauthorised _⟩⟩
    obtain ⟨decision, owner, -, -, -, reduced⟩ := decided authorised
    rw [reduced] at errs
    split at errs <;> cases errs
  · obtain ⟨decision, owner, administrative, final, owned, reduced⟩ :=
      (reduce_spec grounded loaded).1 authorised
    refine ⟨decision, administrative, fun callback => ?_⟩
    rw [reduced]
    cases quiet : decision.finalCollision with
    | true => simp
    | false =>
      have calm : ¬Conflict initial events t := by
        rw [← final, quiet]
        exact Bool.false_ne_true
      rw [(owned quiet).unique (ownerIs_settle authorised calm)]
  · exact reduce_perm same grounded loaded callback
  · obtain ⟨conflicting, admissible⟩ := validate_batch grounded authorised
    constructor
    · rintro ⟨t, loaded, decision, reduced, collides⟩
      obtain ⟨decision', owner, -, final, -, reduced'⟩ :=
        (reduce_spec grounded loaded).1 (authorised t)
      rw [reduced'] at reduced
      have same : decision' = decision := by
        split at reduced <;> exact Except.ok.inj reduced
      exact conflicting ⟨t, final.mp (same ▸ collides)⟩
    · intro validated
      have clash : ∃ t, Conflict initial events t := by
        by_contra quiet
        rw [admissible fun t conflict => quiet ⟨t, conflict⟩] at validated
        cases validated
      obtain ⟨t, conflict⟩ := clash
      have loaded := conflict.loaded grounded
      obtain ⟨decision, owner, -, final, -, reduced⟩ :=
        (reduce_spec grounded loaded).1 (authorised t)
      refine ⟨t, loaded, decision, ?_, final.mpr conflict⟩
      rw [reduced, final.mpr conflict, Bool.or_true]
      rfl
  · have poisoned := UniqueTupleReducer.observe_error failed
    dsimp only
    rw [UniqueTupleReducer.foldl_observe_poisoned poisoned]
    constructor
    · exact fun next => ⟨_, congrArg Prod.fst (UniqueTupleReducer.observe_poisoned poisoned next)⟩
    · exact fun callback => ⟨_, UniqueTupleReducer.finishWith_poisoned poisoned callback⟩

section HandOver

/-- A tuple of a work index, and the records that hand it over. -/
def slot : UniqueIdentity := ⟨none, "unique", [0, 255, 0]⟩

def giver : RecordIdentity := ⟨none, "a"⟩

def taker : RecordIdentity := ⟨none, "b"⟩

def owned : RecordSnapshot :=
  { RecordSnapshot.empty with
    uniqueProbesLoaded := (∅ : BTreeSet UniqueIdentity).insert slot
    uniqueOwners := (∅ : BTreeMap UniqueIdentity RecordIdentity).insert slot giver }

/-- The claims arrive before the release that makes room for them. -/
def handOver : List UniqueEvent :=
  [⟨slot, .claim taker .administrative⟩, ⟨slot, .claim taker .ordinary⟩, ⟨slot, .release giver⟩]

theorem handOver_grounded : Grounded owned 65536 handOver where
  loaded event member := by
    have here : event.tuple = slot := by
      simp only [handOver, mem_cons, not_mem_nil, or_false] at member
      rcases member with rfl | rfl | rfl <;> rfl
    rw [here]
    exact ExtTreeSet.mem_insert_self
  owned t o found := by
    change ((∅ : BTreeMap UniqueIdentity RecordIdentity).insert slot giver)[t]? = some o at found
    rw [get_insert] at found
    split at found
    · next here =>
      rw [← here, ← Option.some.inj found]
      rfl
    · simp at found
  claims t o claimed := by
    obtain ⟨origin, member⟩ := claimed
    simp only [handOver, mem_cons, not_mem_nil, or_false] at member
    rcases member with same | same | same <;> cases same <;> rfl
  work t o claimed := by
    simp only [ClaimedAdministratively, handOver, mem_cons, not_mem_nil, or_false] at claimed
    rcases claimed with same | same | same <;> cases same
    rfl
  capacity := by decide
  admitted t a b first second := by
    have named : ∀ c, Claimed handOver t c → c = taker := by
      rintro c ⟨origin, member⟩
      simp only [handOver, mem_cons, not_mem_nil, or_false] at member
      rcases member with same | same | same <;> cases same <;> rfl
    rw [named a first, named b second]
    decide +kernel

/-- The taker owns the handed over tuple in the end. -/
theorem reduce_agrees_with_validate_handOver :
    reduce owned 65536 handOver slot (fun owner => if owner = some taker then .ok () else
      .error (unknown "owner")) = .ok ⟨false, false⟩ ∧
    (batch handOver).validate owned = .ok (.ok ()) ∧
    ¬∃ t ∈ owned.uniqueProbesLoaded, ∃ decision,
      reduce owned 65536 handOver t (fun _ => .ok ()) = .ok decision ∧
        decision.finalCollision = true := by
  have authorised : ∀ t, Authorised owned handOver t := by
    intro t o member
    simp only [handOver, mem_cons, not_mem_nil, or_false] at member
    rcases member with same | same | same <;> cases same
    decide +kernel
  have valid : (batch handOver).validate owned = .ok (.ok ()) := by decide +kernel
  refine ⟨by decide +kernel, valid, fun collides => ?_⟩
  rw [(reduce_agrees_with_validate handOver_grounded).2.1 authorised, valid] at collides
  cases collides

/-- A record of a state collection claims a tuple of the work index. -/
def foreignClaim : List UniqueEvent := [⟨slot, .claim ⟨some "states", "a"⟩ .ordinary⟩]

/-- The reducer refuses a claimant of another collection, without any release; the batch check
does not look at collections. -/
theorem reduce_refuses_foreign_claimant :
    (∀ t owner, (⟨t, .release owner⟩ : UniqueEvent) ∉ foreignClaim) ∧
    reduce { owned with uniqueOwners := ∅ } 65536 foreignClaim slot (fun _ => .ok ()) =
      .error (unknown "unique claimant collection mismatch") ∧
    (batch foreignClaim).validate { owned with uniqueOwners := ∅ } = .ok (.ok ()) := by
  refine ⟨fun t owner member => ?_, by decide +kernel, by decide +kernel⟩
  cases mem_singleton.mp member

end HandOver

end QueueUniqueStream
