import Fireweed.QueuePlanner.Histories

/-!
# Leases over histories

While a lease is active only its holder and an administrator change its row, whatever
else is requested.
-/

namespace QueuePlanner

open List hiding map_map mem_iff_get
open BTree Checked QueueContract QueueFields Runs Std

variable [Sha256]

/-- The holder of a lease and an administrator may change a leased row. -/
inductive Overrides (now : Int64) (stored : StoredWork) : GroupUpdate → Prop
  | holder {u : ClaimedUpdate} (live : staleCredential stored now u.lease.token = false)
      (expected : stored.record.version = u.expectedVersion) : Overrides now stored (.claimed u)
  | administrator {u : UnclaimedUpdate} {patch : WorkPatch} {lifecycle : AdministrativeLifecycle}
      {leaseGuard : AdministrativeLeaseGuard}
      (change : u.change = .administrative patch lifecycle leaseGuard)
      (forced : leaseGuard ≠ .rejectActive) : Overrides now stored (.unclaimed u)

/-- A request made before the expiry of a lease, by others than those who may change its row. -/
def Request.Spares (key : String) (stored : StoredWork) (expiry : Int64) : Request → Prop
  | .commit group now =>
    now < expiry ∧ ∀ u ∈ updates group, u.identity = ⟨none, key⟩ → ¬Overrides now stored u
  | .insert request clock =>
    ∀ i time, i < request.items.length → clock i = .ok time → time < expiry
  | .claim _ _ context => context.now < expiry
  | .loadUnique _ _ => True

section Requests

variable {schema : QueueSchema} {snapshot : RecordSnapshot} {key : String} {stored : StoredWork}

theorem Outcome.overrides {now : Int64} {cell : Cell} {sequence next : UInt64} {u : GroupUpdate}
    {effect : Effect} (outcome : Outcome now schema cell sequence u (some effect) next)
    (found : cell.work = some stored) (active : stored.active now = true)
    (names : u.identity = ⟨none, key⟩) : Overrides now stored u := by
  cases outcome with
  | claimedPut here live expected | claimedDelete here live expected =>
    cases found.symm.trans here
    exact .holder live expected
  | administrative here _ change applied =>
    cases found.symm.trans here
    refine .administrator change fun guarded => ?_
    cases active.symm.trans ((applyAdministrativeUpdate_spec applied).idle guarded)
  | patched here _ _ idle | replaced here _ _ idle | deleted here _ _ idle =>
    cases found.symm.trans here
    cases active.symm.trans idle
  | inserted absent => cases found.symm.trans absent
  | _ => cases names

theorem planCommitGroup_spares {group : CommitGroup} {now : Int64}
    (distinct : group.addressed.Nodup) (found : snapshot.work[key]? = some stored)
    (active : stored.active now = true)
    (spared : ∀ u ∈ updates group, u.identity = ⟨none, key⟩ → ¬Overrides now stored u) :
    (planCommitGroup group snapshot now schema).2.work[key]? = some stored := by
  rcases (planCommitGroup_leaves distinct).2 ⟨none, key⟩ with same |
    ⟨u, member, names, effect, _, _, outcome, -⟩
  · exact (congrArg Cell.work same).trans found
  · exact absurd (outcome.overrides found active names) (spared u member names)

/-- The group of an item neither presents a credential nor is it administrative. -/
theorem insertGroup_spares {now : Int64} (request : InsertRequest) (item : NewWork) :
    ∀ u ∈ updates (insertGroup request snapshot item), ¬Overrides now stored u := by
  intro u member overrides
  rcases insertGroup_updates member with rfl | ⟨expected, rfl⟩
  · cases overrides
  · cases overrides with
    | administrator change => cases change

theorem perform_spares {request : Request} {expiry : Int64}
    (found : snapshot.work[key]? = some stored) (leased : stored.record.lifecycle = .leased)
    (expires : stored.record.leaseExpiresAt = some expiry) (admitted : request.Admitted)
    (spares : request.Spares key stored expiry) :
    (request.perform schema snapshot).work[key]? = some stored := by
  have active {now : Int64} (early : now < expiry) : stored.active now = true := by
    simp [StoredWork.active, leased, expires, early]
  cases request with
  | commit group now => exact planCommitGroup_spares admitted found (active spares.1) spares.2
  | insert request clock =>
    refine planInsertItems_relates
      (R := fun s t => s.work[key]? = some stored → t.work[key]? = some stored) (fun _ => id)
      (fun first second => second ∘ first) request (fun s item i time small reading found => ?_)
      snapshot found
    exact planCommitGroup_spares (insertGroup_addressed request s item) found
      (active (spares i time small reading))
      fun u member _ => insertGroup_spares request item u member
  | claim claimed token context =>
    rw [Request.perform]
    split
    · exact found
    · next row here =>
      split
      · next after ok =>
        by_cases same : claimed = key
        · subst same
          cases found.symm.trans here
          cases (active spares).symm.trans (planClaim_eq_ok ok).1
        · simp [RecordSnapshot.storeClaim, ExtTreeMap.getElem?_insert, same, found]
      · exact found
  | loadUnique => exact found

end Requests

/-- Until its lease expires a row is as its holder left it, whatever others request. -/
theorem history_lease {schema : QueueSchema} {before after : RecordSnapshot}
    {requests : List Request} {key : String} {stored : StoredWork} {expiry : Int64}
    (found : before.work[key]? = some stored) (leased : stored.record.lifecycle = .leased)
    (expires : stored.record.leaseExpiresAt = some expiry)
    (run : Run (Step schema) before requests after)
    (spares : ∀ request ∈ requests, request.Spares key stored expiry) :
    after.work[key]? = some stored := by
  induction run with
  | nil => exact found
  | cons head _ ih =>
    obtain ⟨admitted, rfl⟩ := head
    obtain ⟨first, rest⟩ := List.forall_mem_cons.mp spares
    exact ih (perform_spares found leased expires admitted first) rest

/-- The sample row, claimed until time ten. -/
def sampleHeld : StoredWork where
  record := ⟨⟨"k", 0, 0, ∅, []⟩, 2, 1, .leased, 0, 1, some 10⟩
  leaseHash := some (@leaseHash sampleSha256 [1])
  fieldCoverage := .complete
  bodyLoaded := true

/-- Another claim, a patch without a credential and an upsert, before the lease expires. -/
def sampleIntruders : List Request :=
  [.claim "k" [2] ⟨5, 5, 20, 1⟩,
    .commit ⟨"p", [], [], [], [⟨"k", .version 2, .patch ⟨none, none, ∅, none⟩⟩], none⟩ 6,
    .insert ⟨sampleQueue, "i", .upsert, [⟨"k", 0, 0, ∅, [7]⟩]⟩ fun _ => .ok 7]

omit [Sha256] in
theorem history_lease_sample :
    (sampleIntruders.foldl (@Request.perform sampleSha256 sampleSchema)
      (sampleImage (sampleRequests.take 1))).work["k"]? = some sampleHeld := by
  have claimed : (sampleImage (sampleRequests.take 1)).work["k"]? = some sampleHeld := rfl
  refine @history_lease sampleSha256 _ _ _ sampleIntruders _ _ 10 claimed rfl rfl
    (@run_foldl sampleSha256 _ _ _ ?_) ?_
  · simp [sampleIntruders, Request.Admitted, CommitGroup.addressed]
  · simp only [sampleIntruders, forall_mem_cons, not_mem_nil, false_implies, implies_true,
      and_true, Request.Spares]
    refine ⟨by decide, ⟨by decide, fun u member _ overrides => ?_⟩, fun i time _ reading => ?_⟩
    · cases mem_singleton.mp member
      cases overrides with
      | administrator change => cases change
    · cases reading
      decide

end QueuePlanner
