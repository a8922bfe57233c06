import Fireweed.QueuePlanner.UniqueEffects
import Fireweed.QueuePlanner.Atomicity

/-!
# Unique ownership over runs

An image is exact when its table of owners names exactly the live records that
hold each complete tuple of a unique index. Planned groups keep images exact, and
refuse an accepted group exactly when two records would share a tuple.
-/

namespace QueuePlanner

open List hiding map_map mem_iff_get
open BTree Checked QueueContract QueueFields Ownership Std

/-! ## The image of a delta -/

/-- The image a delta describes, ownership aside. -/
def CommitDelta.image (delta : CommitDelta) (snapshot : RecordSnapshot) : RecordSnapshot :=
  writeDelta snapshot delta [] [] delta.work

section Image

variable {snapshot : RecordSnapshot} {delta : CommitDelta} {schema : QueueSchema}
  {released : List UniqueIdentity} {additions : List (UniqueIdentity × RecordIdentity)}
  {merged : List StoredWork} (shaped : delta.Shaped)
  (rows : List.Forall₂ (fun row stored : StoredWork => stored.key = row.key ∧ ∀ t,
    HoldsTuple none schema.work stored.fields t ↔ HoldsTuple none schema.work row.fields t)
      delta.work merged)

include rows in
theorem keys_eq_of_rows : merged.map StoredWork.key = delta.work.map StoredWork.key := by
  rw [eq_comm, ← forall₂_eq_eq_eq, forall₂_map_left_iff, forall₂_map_right_iff]
  exact rows.imp fun _ _ same => same.1.symm

include shaped rows in
theorem holds_writeDelta_listed {id : RecordIdentity}
    (listed : id ∈ delta.versions.map versionIdentity) (t : UniqueIdentity) :
    (writeDelta snapshot delta released additions merged).Holds schema id t ↔
      delta.Holds schema id t := by
  obtain ⟨collection, key⟩ := id
  cases collection with
  | none =>
    simp only [RecordSnapshot.Holds, CommitDelta.Holds]
    by_cases put : key ∈ delta.work.map StoredWork.key
    · obtain ⟨row, member, rfl⟩ := mem_map.mp put
      obtain ⟨stored, among, same, holds⟩ := forall₂_mem_left rows member
      have distinct : (merged.map StoredWork.key).Nodup := by
        rw [keys_eq_of_rows rows]
        exact shaped.work
      rw [← same, writeDelta_work_put distinct among, same, workRow_of_mem shaped member]
      simp [holds]
    · have deleted := ((shaped.workListed key).mp listed).resolve_left put
      rw [writeDelta_work_absent (by rwa [keys_eq_of_rows rows]), if_pos deleted,
        workRow_of_not_mem put]
  | some collection =>
    simp only [RecordSnapshot.Holds, CommitDelta.Holds]
    by_cases put : (collection, key) ∈ delta.state.map fun row => (row.collection, row.key)
    · obtain ⟨row, member, same⟩ := mem_map.mp put
      cases same
      rw [writeDelta_state_put shaped member, stateRow_of_mem shaped member]
    · have deleted := ((shaped.stateListed (collection, key)).mp listed).resolve_left put
      rw [writeDelta_state_absent put, if_pos deleted, stateRow_of_not_mem put]

include shaped rows in
theorem holds_writeDelta_other {id : RecordIdentity}
    (other : id ∉ delta.versions.map versionIdentity) (t : UniqueIdentity) :
    (writeDelta snapshot delta released additions merged).Holds schema id t ↔
      snapshot.Holds schema id t := by
  obtain ⟨collection, key⟩ := id
  cases collection with
  | none =>
    simp only [RecordSnapshot.Holds]
    rw [shaped.workListed, not_or] at other
    rw [writeDelta_work_absent (by rw [keys_eq_of_rows rows]; exact other.1), if_neg other.2]
  | some collection =>
    simp only [RecordSnapshot.Holds]
    have other := (shaped.stateListed (collection, key)).not.mp other
    rw [not_or] at other
    rw [writeDelta_state_absent other.1, if_neg other.2]

include shaped rows in
/-- The effects of a delta lead from the tuples held before it to those held after it. -/
theorem transfer_writeDelta {effects : UniqueFieldEffects}
    (ok : uniqueEffects delta snapshot schema = .ok effects) :
    Transfer (snapshot.Holds schema)
      ((writeDelta snapshot delta released additions merged).Holds schema)
      effects.releases effects.claims := by
  obtain ⟨releases, claims⟩ := uniqueEffects_spec ok
  constructor
  · intro t r
    rw [releases]
    by_cases listed : r ∈ delta.versions.map versionIdentity
    · simp only [listed, true_and, holds_writeDelta_listed shaped rows listed]
    · simp only [listed, false_and, holds_writeDelta_other shaped rows listed, and_not_self]
  · intro t r
    rw [claims]
    by_cases listed : r ∈ delta.versions.map versionIdentity
    · simp only [listed, true_and, holds_writeDelta_listed shaped rows listed]
    · simp only [listed, false_and, holds_writeDelta_other shaped rows listed, and_not_self]

end Image

/-! ## Exact images -/

/-- Every row is loaded in full, and the table of owners names exactly the holders. -/
structure RecordSnapshot.Exact (schema : QueueSchema) (snapshot : RecordSnapshot) : Prop where
  complete : ∀ (key : String) (row : StoredWork), snapshot.work[key]? = some row →
    row.fieldCoverage = .complete
  owners : Ownership.Exact snapshot.uniqueOwners (snapshot.Holds schema)

/-- The snapshot after more tuples were probed. -/
def RecordSnapshot.probe (snapshot : RecordSnapshot) (loaded : BTreeSet UniqueIdentity) :
    RecordSnapshot :=
  { snapshot with uniqueProbesLoaded := loaded }

theorem SameRow.fields_eq {a b : StoredWork} (same : SameRow a b) :
    Fields.eq a.fields b.fields = true := by
  have record := same.record
  simp only [WorkRecord.eq, NewWork.eq, Bool.and_eq_true] at record
  simp only [StoredWork.fields, record]

section Step

variable [Sha256] {group : CommitGroup} {snapshot : RecordSnapshot} {now : Int64}
  {schema : QueueSchema} (distinct : group.addressed.Nodup)

include distinct in
theorem Commit.rows_hold (commit : Commit group snapshot now schema) :
    Forall₂ (fun row stored : StoredWork => stored.key = row.key ∧ ∀ t,
      HoldsTuple none schema.work stored.fields t ↔ HoldsTuple none schema.work row.fields t)
        commit.delta.work commit.merged := by
  refine (commit.merged_spec distinct).imp ?_
  rintro row _ ⟨change, body, command, rfl⟩
  exact ⟨rfl, fun t => holdsTuple_congr (mergeRow_same command.viewed).fields_eq⟩

include distinct in
theorem Commit.exact (commit : Commit group snapshot now schema) (exact : snapshot.Exact schema) :
    commit.after.Exact schema := by
  have shaped := commit.shaped distinct
  constructor
  · intro key row found
    by_cases listed : (⟨none, key⟩ : RecordIdentity) ∈ commit.delta.versions.map versionIdentity
    · rcases (shaped.workListed key).mp listed with put | deleted
      · obtain ⟨written, member, rfl⟩ := mem_map.mp put
        obtain ⟨change, body, command, stored⟩ := commit.after_work_put distinct member
        rw [found, Option.some.injEq] at stored
        rw [stored]
        exact mergeRow_complete command.viewed (exact.complete written.key)
      · rw [commit.after_work_deleted distinct deleted] at found
        cases found
    · rw [commit.after_work_other distinct listed] at found
      exact exact.complete key row found
  · have transfer : Transfer (snapshot.Holds schema) (commit.after.Holds schema)
        commit.unique.releases commit.unique.claims :=
      transfer_writeDelta shaped (commit.rows_hold distinct) commit.owned
    rcases validate_spec commit.admissible with ⟨-, admissible⟩ | ⟨refused, -⟩
    · exact settle_exact exact.owners transfer admissible
    · cases refused

include distinct in
theorem planCommitGroup_exact (exact : snapshot.Exact schema) :
    (planCommitGroup group snapshot now schema).2.Exact schema := by
  rcases planCommitGroup_cases group snapshot now schema distinct with
    ⟨e, failed⟩ | ⟨reason, -, rejected⟩ | ⟨commit, committed⟩
  · rw [failed]
    exact exact
  · rw [rejected]
    exact exact
  · rw [committed]
    exact commit.exact distinct exact

include distinct in
/-- What the probes of an accepted group are computed from. -/
theorem accepted_of_requiredUniqueProbes {probes : BTreeSet UniqueIdentity} {delta : CommitDelta}
    {candidate : RecordSnapshot}
    (probed : requiredUniqueProbes group snapshot now schema = .ok probes)
    (applied : applyGroup now schema group (addressedSnapshot group snapshot) =
      .ok (delta, candidate)) :
    ∃ accepted : Accepted group snapshot now schema,
      delta = effectsDelta group.requestId accepted.effects accepted.sequence ∧
      (∀ (t : UniqueIdentity) (r : RecordIdentity), accepted.unique.releases[t]? = some r →
        t ∈ probes) ∧
      ∀ t r, (t, r) ∈ accepted.unique.claims → t ∈ probes := by
  have planning := applyGroup_effects now schema group snapshot distinct
  rw [applied] at planning
  obtain ⟨⟨effects, sequence⟩, planned, same⟩ := map_eq_ok.mp planning.symm
  obtain ⟨validated, probed⟩ := check_bind_eq_ok.mp probed
  rw [applied] at probed
  obtain ⟨resolved, resolution, probed⟩ := bind_eq_ok.mp probed
  obtain ⟨unique, owned, probed⟩ := bind_eq_ok.mp probed
  cases probed
  obtain rfl : effectsDelta group.requestId effects sequence = delta := same
  refine ⟨⟨effects, sequence, resolved, unique, validated, planned, resolution, owned⟩, rfl, ?_, ?_⟩
  · intro t r released
    rw [mem_setOfList, mem_append, ExtTreeMap.mem_keys, mem_iff_get]
    exact .inl ⟨r, released⟩
  · intro t r claimed
    rw [mem_setOfList, mem_append]
    exact .inr (mem_map.mpr ⟨(t, r), claimed, rfl⟩)

/-- An accepted group does not depend on the probes. -/
def Accepted.probe (accepted : Accepted group snapshot now schema)
    (loaded : BTreeSet UniqueIdentity) : Accepted group (snapshot.probe loaded) now schema where
  effects := accepted.effects
  sequence := accepted.sequence
  delta := accepted.delta
  unique := accepted.unique
  validated := accepted.validated
  planned := by
    have same : ∀ u ∈ updates group,
        (snapshot.probe loaded).cell u.identity = snapshot.cell u.identity := fun _ _ => rfl
    rw [← accepted.planned]
    exact planEffects_congr same _
  resolved := accepted.resolved
  owned := accepted.owned

include distinct in
/-- With the required probes loaded, a group accepted on an exact image is refused as a conflict
exactly when two records of its image share a tuple. -/
theorem rejected_uniqueConflict_iff (exact : snapshot.Exact schema)
    {probes loaded : BTreeSet UniqueIdentity} {delta : CommitDelta} {candidate : RecordSnapshot}
    (probed : requiredUniqueProbes group snapshot now schema = .ok probes)
    (enough : ∀ t ∈ probes, t ∈ loaded)
    (applied : applyGroup now schema group (addressedSnapshot group snapshot) =
      .ok (delta, candidate)) :
    (∃ refused, (planCommitGroup group (snapshot.probe loaded) now schema).1 = .ok refused ∧
      refused.receipt.outcome = .rejected .uniqueConflict) ↔
    ∃ t r r', r ≠ r' ∧ (delta.image snapshot).Holds schema r t ∧
      (delta.image snapshot).Holds schema r' t := by
  obtain ⟨accepted, rfl, releases, claims⟩ :=
    accepted_of_requiredUniqueProbes distinct probed applied
  have shaped := effectsDelta_shaped (accepted.effects_nodup distinct) accepted.effect_shaped
    group.requestId accepted.sequence
  have transfer : Transfer (snapshot.Holds schema) ((CommitDelta.image
      (effectsDelta group.requestId accepted.effects accepted.sequence) snapshot).Holds schema)
      accepted.unique.releases accepted.unique.claims := by
    have rows : Forall₂ (fun row stored : StoredWork => stored.key = row.key ∧ ∀ t,
        HoldsTuple none schema.work stored.fields t ↔ HoldsTuple none schema.work row.fields t)
          accepted.delta.work accepted.delta.work := forall₂_same.mpr fun _ _ => ⟨rfl, by simp⟩
    have described : Transfer (snapshot.Holds schema)
        ((accepted.delta.image snapshot).Holds schema) accepted.unique.releases
        accepted.unique.claims :=
      transfer_writeDelta (accepted.shaped distinct) rows accepted.owned
    rw [accepted.delta_eq distinct] at described
    exact described
  have settled := (admissible_iff_exclusive exact.owners transfer)
  obtain ⟨outcome, validated⟩ := validate_total accepted.unique (snapshot.probe loaded)
    (fun t r released => ⟨enough t (releases t r released),
      (exact.owners t r).mpr ((transfer.released t r).mp released).1⟩)
    (fun t r claimed => enough t (claims t r claimed))
  rcases validate_spec validated with ⟨rfl, admissible⟩ | ⟨rfl, conflict⟩
  · obtain ⟨commit, same, planned⟩ :=
      (accepted.probe loaded).planCommitGroup_committed distinct validated
    rw [planned]
    refine iff_of_false ?_ ?_
    · rintro ⟨refused, found, outcome⟩
      cases found
      rw [(accepted.probe loaded).delta_eq distinct] at outcome
      cases outcome
    · rintro ⟨t, r, r', different, left, right⟩
      exact different (settled.mp admissible t r r' left right)
  · rw [(accepted.probe loaded).planCommitGroup_rejected distinct validated]
    refine iff_of_true ⟨_, rfl, rfl⟩ ?_
    by_contra none
    refine conflict (settled.mpr fun t r r' left right => ?_)
    by_contra different
    exact none ⟨t, r, r', different, left, right⟩

end Step

/-! ## Runs -/

section Runs

variable [Sha256] (schema : QueueSchema)

/-- Validated groups planned one after another, each after its probes were loaded. -/
inductive ProbedRun : RecordSnapshot → RecordSnapshot → Prop where
  | refl (start : RecordSnapshot) : ProbedRun start start
  | group {start middle : RecordSnapshot} {limits : QueueLimits} {queue : QueueAddress}
      {groups : List CommitGroup} {group : CommitGroup} {now : Int64}
      {probes loaded : BTreeSet UniqueIdentity} (run : ProbedRun start middle)
      (validated : validateCommitGroups schema limits queue groups = .ok ())
      (member : group ∈ groups)
      (probed : requiredUniqueProbes group middle now schema = .ok probes)
      (enough : ∀ t ∈ probes, t ∈ loaded)
      (extended : ∀ t ∈ middle.uniqueProbesLoaded, t ∈ loaded) :
      ProbedRun start (planCommitGroup group (middle.probe loaded) now schema).2

variable {schema}

/-- Every image of a run that starts exact is exact, no two live records share a tuple in it, and
the next accepted group is refused as a conflict exactly when two records of its image would. -/
theorem probedRun_exact {start final : RecordSnapshot} (exact : start.Exact schema)
    (run : ProbedRun schema start final) :
    final.Exact schema ∧ Exclusive (final.Holds schema) ∧
    ∀ (limits : QueueLimits) (queue : QueueAddress) (groups : List CommitGroup)
      (group : CommitGroup) (now : Int64) (probes loaded : BTreeSet UniqueIdentity)
      (delta : CommitDelta) (candidate : RecordSnapshot),
      validateCommitGroups schema limits queue groups = .ok () → group ∈ groups →
      requiredUniqueProbes group final now schema = .ok probes → (∀ t ∈ probes, t ∈ loaded) →
      applyGroup now schema group (addressedSnapshot group final) = .ok (delta, candidate) →
      ((∃ refused, (planCommitGroup group (final.probe loaded) now schema).1 = .ok refused ∧
          refused.receipt.outcome = .rejected .uniqueConflict) ↔
        ∃ t r r', r ≠ r' ∧ (delta.image final).Holds schema r t ∧
          (delta.image final).Holds schema r' t) := by
  have preserved : final.Exact schema := by
    induction run with
    | refl => exact exact
    | group run validated member _ _ _ ih =>
      have distinct := ((validateCommitGroups_admitted validated).2 _ member).distinct
      have probed := ih
      exact planCommitGroup_exact distinct ⟨probed.complete, probed.owners⟩
  refine ⟨preserved, preserved.owners.exclusive, ?_⟩
  intro limits queue groups group now probes loaded delta candidate validated member probed enough
    applied
  exact rejected_uniqueConflict_iff ((validateCommitGroups_admitted validated).2 _ member).distinct
    preserved probed enough applied

end Runs

theorem empty_exact (schema : QueueSchema) : RecordSnapshot.empty.Exact schema := by
  constructor
  · intro key row found
    simp [RecordSnapshot.empty] at found
  · rintro t ⟨collection, key⟩
    cases collection <;> simp [RecordSnapshot.Holds, RecordSnapshot.empty]

/-- The tuple of both sample inserts below. -/
def sampleProbes : BTreeSet UniqueIdentity :=
  .ofList [⟨none, "by_a", [1, 1, 0, 128, 0, 0, 0, 0, 0, 0, 1]⟩] compare

/-- The image after one insert. -/
def sampleOwned : RecordSnapshot :=
  (@planCommitGroup sampleSha256 (sampleInsert "k" 1) (RecordSnapshot.empty.probe sampleProbes) 0
    sampleSchema).2

/-- After one insert the image is exact, and a second insert is refused exactly when the two
records would share their tuple. -/
theorem probedRun_exact_inserts :
    sampleOwned.Exact sampleSchema ∧ Exclusive (sampleOwned.Holds sampleSchema) ∧
    ∀ delta candidate, @applyGroup sampleSha256 0 sampleSchema (sampleInsert "l" 1)
        (addressedSnapshot (sampleInsert "l" 1) sampleOwned) = .ok (delta, candidate) →
      ((∃ refused, (@planCommitGroup sampleSha256 (sampleInsert "l" 1)
          (sampleOwned.probe sampleProbes) 0 sampleSchema).1 = .ok refused ∧
          refused.receipt.outcome = .rejected .uniqueConflict) ↔
        ∃ t r r', r ≠ r' ∧ (delta.image sampleOwned).Holds sampleSchema r t ∧
          (delta.image sampleOwned).Holds sampleSchema r' t) := by
  have run : @ProbedRun sampleSha256 sampleSchema RecordSnapshot.empty sampleOwned :=
    @ProbedRun.group sampleSha256 sampleSchema .empty .empty .default sampleQueue
      [sampleInsert "k" 1] (sampleInsert "k" 1) 0 sampleProbes sampleProbes
      (@ProbedRun.refl sampleSha256 sampleSchema .empty)
      (by decide +kernel) (mem_singleton_self _) (by decide +kernel)
      (fun t member => member) (fun t member => by simp [RecordSnapshot.empty] at member)
  have whole := @probedRun_exact sampleSha256 sampleSchema _ _ (empty_exact sampleSchema) run
  refine ⟨whole.1, whole.2.1, fun delta candidate applied => ?_⟩
  exact whole.2.2 .default sampleQueue [sampleInsert "l" 1] (sampleInsert "l" 1) 0 sampleProbes
    sampleProbes delta candidate (by decide +kernel) (mem_singleton_self _)
    (by decide +kernel) (fun t member => member) applied

end QueuePlanner
