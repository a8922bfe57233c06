import Fireweed.QueueContract.Admission
import Fireweed.QueuePlanner.Commit
import Fireweed.Runs

/-!
# Histories of an image

Commit groups, insert vectors and claims are planned on one image in any order and at
any times. Whatever the order, the image stays one that the planner accepts, a version
stands for one content of a record, and an active lease protects its row.
-/

namespace QueuePlanner

open List hiding map_map mem_iff_get
open BTree Checked QueueContract QueueFields Runs Std

/-! ## Claims -/

structure ClaimContext where
  now : Int64
  eligibleAt : Int64
  expiresAt : Int64
  insertionHead : UInt64

def claimAuthority (message : String) : QueueError :=
  .outcomeUnknown ("claim authority: " ++ message)

section Model

variable [Sha256] (schema : QueueSchema)

/-- The claim policy. It reads and writes the metadata of a row only. -/
def planClaimMetadata (work : StoredWork) (token : List UInt8) (context : ClaimContext) :
    QueueResult StoredWork := do
  let record := work.record
  let leased := decide (record.lifecycle = .leased)
  rejectIf (leased != record.leaseExpiresAt.isSome || leased != work.leaseHash.isSome)
    (claimAuthority "inconsistent raw replay lease")
  rejectIf (record.version == 0 || record.insertionSequence == 0 ||
      decide (record.insertionSequence > context.insertionHead))
    (claimAuthority "invalid predecessor version or insertion sequence")
  let pending := decide (record.lifecycle = .pending) ||
    (leased && record.leaseExpiresAt.any fun expiry => decide (expiry ≤ context.now))
  rejectIf (!pending || decide (record.work.availableAt > context.eligibleAt))
    (claimAuthority "native selection returned ineligible work")
  rejectIf (token.isEmpty || decide (context.expiresAt ≤ context.now))
    (.invalid "invalid claim lease")
  rejectIf (work.leaseHash == some (leaseHash token))
    (claimAuthority "reused predecessor lease token")
  rejectIf (record.version == 18446744073709551615) (claimAuthority "version exhausted")
  rejectIf (record.attempts == 4294967295) (claimAuthority "attempts exhausted")
  .ok { work with
    record := { record with
      version := record.version + 1
      attempts := record.attempts + 1
      lifecycle := .leased
      leaseExpiresAt := some context.expiresAt }
    leaseHash := some (leaseHash token) }

def planClaim (work : StoredWork) (token : List UInt8) (context : ClaimContext) :
    QueueResult StoredWork := do
  validateRawWorkLease work
  let _ ← work.view
  planClaimMetadata work token context

/-! ## Requests -/

inductive Request where
  | commit (group : CommitGroup) (now : Int64)
  | insert (request : InsertRequest) (clock : Nat → QueueResult Int64)
  | claim (key : String) (token : List UInt8) (context : ClaimContext)
  | loadUnique (probes : BTreeSet UniqueIdentity) (owners : BTreeMap UniqueIdentity RecordIdentity)

/-- A store writes a claimed row back; its version is the high-water. -/
def RecordSnapshot.storeClaim (snapshot : RecordSnapshot) (key : String) (row : StoredWork) :
    RecordSnapshot :=
  { snapshot with
    work := snapshot.work.insert key row
    versions := snapshot.versions.insert ⟨none, key⟩ row.record.version }

/-- The image after a request; what fails is discarded. -/
def Request.perform (snapshot : RecordSnapshot) : Request → RecordSnapshot
  | .commit group now => (planCommitGroup group snapshot now schema).2
  | .insert request clock => (planInsertVector request snapshot schema clock).2
  | .claim key token context =>
    match snapshot.work[key]? with
    | none => snapshot
    | some stored =>
      match planClaim stored token { context with insertionHead := snapshot.nextSequence } with
      | .ok row => snapshot.storeClaim key row
      | .error _ => snapshot
  | .loadUnique probes owners =>
    { snapshot with uniqueProbesLoaded := probes, uniqueOwners := owners }

/-- A commit group addresses each record once, as its validation requires. -/
def Request.Admitted : Request → Prop
  | .commit group _ => group.addressed.Nodup
  | _ => True

def Step (before : RecordSnapshot) (request : Request) (after : RecordSnapshot) : Prop :=
  request.Admitted ∧ after = request.perform schema before

end Model

/-! ## The rows of an update -/

section Leases

variable {now : Int64} {stored row : StoredWork}

theorem clearLease_coherent (free : stored.record.lifecycle ≠ .leased) :
    LeaseCoherent (clearLease stored) :=
  ⟨by simp [clearLease, free], by simp [clearLease]; exact free⟩

theorem expireLease_coherent (coherent : LeaseCoherent stored) :
    LeaseCoherent (expireLease stored) := by
  rw [expireLease]
  split
  · exact clearLease_coherent fun held => by cases held
  · exact coherent

theorem dispose_coherent {schema : QueueSchema} {wanted : Disposition}
    (coherent : LeaseCoherent stored) (ok : dispose now schema stored wanted = .ok (some row)) :
    LeaseCoherent row := by
  obtain ⟨disposed, inner, rfl⟩ := dispose_some ok
  obtain ⟨-, hash, leased⟩ := disposition_core inner
  split
  · next free => exact clearLease_coherent free
  · next held =>
    have held := not_not.mp held
    obtain ⟨same, expiry⟩ := leased held
    have before := same.symm.trans held
    exact ⟨iff_of_true held (expiry (coherent.expiry.mp before)),
      iff_of_true held (hash ▸ coherent.hash.mp before)⟩

theorem desiredLifecycle_leased {current : Lifecycle} {lifecycle : AdministrativeLifecycle}
    {leaseGuard : AdministrativeLeaseGuard}
    (held : desiredLifecycle current lifecycle leaseGuard = .leased) :
    current = .leased ∧ leaseGuard ≠ .invalidateActive := by
  cases lifecycle with
  | keep =>
    rw [desiredLifecycle] at held
    split at held
    · cases held
    · next kept => exact ⟨held, fun forced => kept ⟨held, forced⟩⟩
  | _ => cases held

theorem Administered.coherent {patch : WorkPatch} {lifecycle : AdministrativeLifecycle}
    {leaseGuard : AdministrativeLeaseGuard} {changed : Bool}
    (administered : Administered stored patch lifecycle leaseGuard now changed row)
    (coherent : LeaseCoherent stored) : LeaseCoherent row := by
  by_cases held : row.record.lifecycle = .leased
  · obtain ⟨before, spared⟩ := desiredLifecycle_leased (administered.target.symm.trans held)
    obtain ⟨expiry, hash⟩ := administered.kept (by simp [held, spared])
    exact ⟨iff_of_true held (expiry ▸ coherent.expiry.mp before),
      iff_of_true held (hash ▸ coherent.hash.mp before)⟩
  · obtain ⟨expiry, hash⟩ := administered.cleared (.inl held)
    exact ⟨by simp [held, expiry], by simp [held, hash]⟩

end Leases

/-- The version of an effect is above the high-water, or the row has the content and the version it
had. -/
def Effect.Versioned (effect : Effect) (cell : Cell) : Prop :=
  cell.highWater.getD 0 < effect.version ∨
  ∃ stored row, cell.work = some stored ∧ effect.workRow? = some row ∧
    row.record.version = stored.record.version ∧ row.record.eq stored.record = true ∧
    row.leaseHash = stored.leaseHash

theorem takeVersion_eq_ok {cell : Cell} {version : UInt64}
    (taken : takeVersion cell = .ok version) : cell.highWater.getD 0 < version := by
  rw [UInt64.lt_iff_toNat_lt, increment_eq_ok taken]
  exact Nat.lt_succ_self _

section Outcomes

variable [Sha256] {now : Int64} {schema : QueueSchema} {cell : Cell} {sequence next : UInt64}
  {u : GroupUpdate} {effect : Effect} {row : StoredWork}
  (outcome : Outcome now schema cell sequence u (some effect) next)

include outcome

theorem Outcome.coherent (coherent : ∀ stored, cell.work = some stored → LeaseCoherent stored)
    (written : effect.workRow? = some row) : LeaseCoherent row := by
  cases outcome with
  | claimedPut found _ _ _ _ disposed =>
    cases written
    refine dispose_coherent ?_ disposed
    exact ⟨(coherent _ found).expiry, (coherent _ found).hash⟩
  | administrative found _ _ applied _ =>
    cases written
    have row := (applyAdministrativeUpdate_spec applied).coherent (coherent _ found)
    exact ⟨row.expiry, row.hash⟩
  | patched found _ _ _ _ =>
    cases written
    have row := expireLease_coherent (coherent _ found)
    exact ⟨row.expiry, row.hash⟩
  | replaced | inserted =>
    cases written
    exact ⟨by simp [freshWork], by simp [freshWork]⟩
  | _ => cases written

/-- A row keeps its insertion sequence or takes the next one. -/
theorem Outcome.sequence_cases (written : effect.workRow? = some row) :
    (∃ stored, cell.work = some stored ∧
      row.record.insertionSequence = stored.record.insertionSequence) ∨
    (sequence < next ∧ row.record.insertionSequence = next) := by
  cases outcome.payload written with
  | edited found _ core => exact .inl ⟨_, found, congrArg RowCore.insertionSequence core⟩
  | whole requested _ =>
    right
    cases outcome with
    | replaced _ _ _ _ _ _ _ advanced | inserted _ _ advanced =>
      cases written
      exact ⟨UInt64.lt_iff_toNat_lt.mpr (by rw [increment_eq_ok advanced]; omega), rfl⟩
    | _ => simp_all [GroupUpdate.whole?]

/-- An effect takes the next version, except for an administrative change that changes nothing. -/
theorem Outcome.versioned : effect.Versioned cell := by
  cases outcome with
  | @administrative _ stored row _ _ _ changed version found _ _ applied taken =>
    cases changed with
    | true => exact .inl (takeVersion_eq_ok taken)
    | false =>
      cases taken
      have administered := applyAdministrativeUpdate_spec applied
      have version : row.record.version = stored.record.version :=
        congrArg RowCore.version administered.core
      have same := administered.difference
      simp only [Bool.false_eq, Bool.or_eq_false_iff, Bool.not_eq_false', bne_eq_false_iff_eq]
        at same
      refine .inr ⟨stored, _, found, rfl, rfl, ?_, same.2⟩
      rw [← version]
      exact same.1
  | _ => exact .inl (takeVersion_eq_ok ‹_›)

end Outcomes

/-! ## One record -/

/-- Rows that the source's comparison of records cannot tell apart. -/
def SameContent : StoredWork → StoredWork → Prop :=
  Relation.ReflTransGen fun a b => a.record.eq b.record = true ∧ a.leaseHash = b.leaseHash

theorem SameContent.version {a b : StoredWork} (same : SameContent a b) :
    a.record.version = b.record.version := by
  induction same with
  | refl => rfl
  | tail _ step ih =>
    simp only [WorkRecord.eq, Bool.and_eq_true, beq_iff_eq] at step
    exact ih.trans step.1.1.1.1.1.1.2

/-- What later changes leave of a record: its high-water does not fall, and a row that is not the
old one has a version above it. -/
structure Cell.Follows (old new : Cell) : Prop where
  highWater : old.highWater.getD 0 ≤ new.highWater.getD 0
  work : ∀ row, new.work = some row → old.highWater.getD 0 < row.record.version ∨
    ∃ stored, old.work = some stored ∧ SameContent row stored
  state : ∀ row, new.state = some row → old.highWater.getD 0 < row.version ∨ old.state = some row

namespace Cell.Follows

theorem refl (cell : Cell) : cell.Follows cell :=
  ⟨UInt64.le_refl _, fun row found => .inr ⟨row, found, .refl⟩, fun _ found => .inr found⟩

theorem trans {a b c : Cell} (first : a.Follows b) (second : b.Follows c) : a.Follows c where
  highWater := UInt64.le_trans first.highWater second.highWater
  work row found := by
    rcases second.work row found with above | ⟨stored, here, same⟩
    · exact .inl (UInt64.lt_of_le_of_lt first.highWater above)
    · rcases first.work stored here with above | ⟨old, there, same'⟩
      · exact .inl (same.version ▸ above)
      · exact .inr ⟨old, there, same.trans same'⟩
  state row found := by
    rcases second.state row found with above | here
    · exact .inl (UInt64.lt_of_le_of_lt first.highWater above)
    · exact first.state row here

end Cell.Follows

theorem mergeRow_covered {old : Option StoredWork} {row : StoredWork} {change : ResolvedFields}
    {body : ResolvedBody}
    (covered : ∀ stored, old = some stored → stored.fieldCoverage.hasBlankPrefix = false) :
    (mergeRow old row change body).fieldCoverage.hasBlankPrefix = false := by
  have base : (old.elim (.selected ∅ ∅) StoredWork.fieldCoverage).hasBlankPrefix = false := by
    cases old with
    | none => rfl
    | some stored => exact covered stored rfl
  simp only [mergeRow, applyToView]
  split
  · rfl
  · next names prefixes same =>
    rw [same] at base
    exact base
  · exact base

/-- What an effect leaves of its record: its version, and its row merged into the old one. -/
structure Leaves (effect : Effect) (old new : Cell) : Prop where
  shaped : effect.Shaped
  highWater : new.highWater = some effect.version
  work : ∀ stored, new.work = some stored → ∃ row change body, effect.workRow? = some row ∧
    stored = mergeRow old.work row change body ∧ SameContent stored row
  state : ∀ row, new.state = some row → effect.stateRow? = some row

theorem Leaves.follows {effect : Effect} {old new : Cell} (leaves : Leaves effect old new)
    (versioned : effect.Versioned old)
    (current : ∀ stored, old.work = some stored → old.highWater = some stored.record.version) :
    old.Follows new := by
  have work {row : StoredWork} (writes : effect.workRow? = some row) :=
    (effect.workRow?_eq_some leaves.shaped writes).2
  rcases versioned with above | ⟨stored, row, here, put, version, equal, hash⟩
  · refine ⟨?_, fun stored found => .inl ?_, fun row found => .inl ?_⟩
    · rw [leaves.highWater]
      exact UInt64.le_of_lt above
    · obtain ⟨row, change, body, writes, rfl, -⟩ := leaves.work stored found
      exact (work writes).symm ▸ above
    · exact (effect.stateRow?_eq_some leaves.shaped (leaves.state row found)).2 ▸ above
  · refine ⟨?_, fun stored' found => .inr ?_, fun row found => ?_⟩
    · rw [current stored here, leaves.highWater, ← version, work put]
      exact UInt64.le_refl _
    · obtain ⟨row', change, body, writes, -, same⟩ := leaves.work stored' found
      obtain rfl := Option.some.inj (put.symm.trans writes)
      exact ⟨stored, here, .tail same ⟨equal, hash⟩⟩
    · have writes := leaves.state row found
      obtain ⟨_, _, change⟩ := effect
      cases change <;> cases writes
      cases put

structure Rewrites (next : UInt64) (effect : Effect) (old new : Cell) : Prop extends
    Leaves effect old new where
  versioned : effect.Versioned old
  coherent : ∀ row, effect.workRow? = some row → LeaseCoherent row
  sequenced : ∀ row, effect.workRow? = some row →
    row.record.insertionSequence ≠ 0 ∧ row.record.insertionSequence ≤ next

/-- A later image that the planner accepts. -/
structure Evolves (before after : RecordSnapshot) : Prop where
  valid : SnapshotValid after
  follows : ∀ id, (before.cell id).Follows (after.cell id)

theorem Evolves.trans {a b c : RecordSnapshot} (first : Evolves a b) (second : Evolves b c) :
    Evolves a c :=
  ⟨second.valid, fun id => (first.follows id).trans (second.follows id)⟩

theorem ne_zero_of_lt {a b : UInt64} (below : a < b) : b ≠ 0 :=
  fun zero => UInt64.not_lt_zero (zero ▸ below)

section Cells

variable {before after : RecordSnapshot} (valid : SnapshotValid before)
  (later : before.nextSequence ≤ after.nextSequence)
  (cells : ∀ id, after.cell id = before.cell id ∨ ∃ effect, effect.identity = id ∧
    Rewrites after.nextSequence effect (before.cell id) (after.cell id))

include valid cells

theorem follows_of_cells (id : RecordIdentity) : (before.cell id).Follows (after.cell id) := by
  rcases cells id with same | ⟨effect, -, rewrites⟩
  · rw [same]
    exact .refl _
  · refine rewrites.follows rewrites.versioned fun stored found => ?_
    obtain ⟨_ | collection, key⟩ := id
    · exact (valid.work key stored found).highWater
    · cases found

theorem stateRowValid_of_cells {id : String × String} {row : StateRecord}
    (found : after.state[id]? = some row) : StateRowValid after id row := by
  rcases cells ⟨some id.1, id.2⟩ with same | ⟨effect, names, rewrites⟩
  · have old := valid.state id row ((congrArg Cell.state same).symm.trans found)
    exact { old with highWater := (congrArg Cell.highWater same).trans old.highWater }
  · have positive : row.version ≠ 0 := by
      rcases (follows_of_cells valid cells ⟨some id.1, id.2⟩).state row found with above | here
      · exact ne_zero_of_lt above
      · exact (valid.state id row here).positive
    obtain ⟨shape, version⟩ :=
      effect.stateRow?_eq_some rewrites.shaped (rewrites.state row found)
    rw [names] at shape
    simp only [RecordIdentity.mk.injEq, Option.some.injEq] at shape
    exact ⟨by rw [← shape.1, ← shape.2], rewrites.highWater.trans (congrArg some version.symm),
      positive⟩

include later

theorem workRowValid_of_cells {key : String} {stored : StoredWork}
    (found : after.work[key]? = some stored) : WorkRowValid after key stored := by
  have old (row) (here : before.work[key]? = some row) := valid.work key row here
  rcases cells ⟨none, key⟩ with same | ⟨effect, names, rewrites⟩
  · have row := old stored ((congrArg Cell.work same).symm.trans found)
    exact { row with
      highWater := (congrArg Cell.highWater same).trans row.highWater
      sequenced := UInt64.le_trans row.sequenced later }
  · have positive : stored.record.version ≠ 0 := by
      rcases (follows_of_cells valid cells ⟨none, key⟩).work stored found with
        above | ⟨row, here, same⟩
      · exact ne_zero_of_lt above
      · exact same.version ▸ (old row here).positive
    obtain ⟨row, change, body, writes, rfl, -⟩ := rewrites.work stored found
    obtain ⟨shape, version⟩ := effect.workRow?_eq_some rewrites.shaped writes
    have coherent := rewrites.coherent row writes
    have sequenced := rewrites.sequenced row writes
    exact ⟨⟨coherent.expiry, coherent.hash⟩,
      mergeRow_covered fun row here => (old row here).covered,
      (congrArg RecordIdentity.key (names.symm.trans shape)).symm,
      rewrites.highWater.trans (congrArg some version.symm), positive, sequenced.1, sequenced.2⟩

/-- Sound rewrites of some records and of no others. -/
theorem evolves_of_cells : Evolves before after :=
  ⟨⟨fun _ _ => workRowValid_of_cells valid later cells,
    fun _ _ => stateRowValid_of_cells valid cells⟩, follows_of_cells valid cells⟩

end Cells

/-! ## Commits -/

section Commits

variable [Sha256] {group : CommitGroup} {snapshot : RecordSnapshot} {now : Int64}
  {schema : QueueSchema}

variable (group now schema) in
/-- A record is left as it was, or as an effect of the group on it says. -/
def Planned (before after : RecordSnapshot) : Prop :=
  before.nextSequence ≤ after.nextSequence ∧
  ∀ id, after.cell id = before.cell id ∨ ∃ u ∈ updates group, u.identity = id ∧
    ∃ effect first last, Outcome now schema (before.cell id) first u (some effect) last ∧
      last ≤ after.nextSequence ∧ Leaves effect (before.cell id) (after.cell id)

variable (distinct : group.addressed.Nodup)

include distinct

theorem Commit.effect_leaves (commit : Commit group snapshot now schema) {effect : Effect}
    (among : effect ∈ commit.effects) :
    Leaves effect (snapshot.cell effect.identity) (commit.after.cell effect.identity) := by
  have delta := commit.delta_eq distinct
  have shaped := commit.effect_shaped effect among
  have listed : effect.recordVersion ∈ commit.delta.versions := by
    rw [delta]
    exact mem_map.mpr ⟨effect, among, rfl⟩
  have highWater := commit.after_versions_listed distinct listed
  obtain ⟨⟨collection, key⟩, number, change⟩ := effect
  cases change with
  | putWork row =>
    cases shaped.1
    have member : row ∈ commit.delta.work := by
      rw [delta]
      exact mem_filterMap.mpr ⟨_, among, rfl⟩
    obtain ⟨change, body, command, put⟩ := commit.after_work_put distinct member
    have same := mergeRow_same command.viewed
    refine ⟨shaped, highWater, fun stored found => ?_, fun row found => by cases found⟩
    obtain rfl := Option.some.inj (put.symm.trans found)
    exact ⟨row, change, body, rfl, rfl, .single ⟨same.record, same.hash⟩⟩
  | deleteWork =>
    cases shaped
    have gone : commit.after.work[key]? = none := by
      refine commit.after_work_deleted distinct ?_
      rw [delta]
      exact mem_filterMap.mpr ⟨_, among, rfl⟩
    exact ⟨rfl, highWater, fun stored found => (by cases gone.symm.trans found),
      fun row found => by cases found⟩
  | putState row =>
    cases shaped.1
    have put : commit.after.state[(row.collection, row.key)]? = some row := by
      refine commit.after_state_put distinct ?_
      rw [delta]
      exact mem_filterMap.mpr ⟨_, among, rfl⟩
    exact ⟨shaped, highWater, fun stored found => (by cases found),
      fun row found => put.symm.trans found⟩
  | deleteState =>
    obtain ⟨collection, rfl⟩ := Option.isSome_iff_exists.mp shaped
    have gone : commit.after.state[(collection, key)]? = none := by
      refine commit.after_state_deleted distinct ?_
      rw [delta]
      exact mem_filterMap.mpr ⟨_, among, rfl⟩
    exact ⟨shaped, highWater, fun stored found => (by cases found),
      fun row found => by cases gone.symm.trans found⟩

theorem Commit.leaves (commit : Commit group snapshot now schema) :
    Planned group now schema snapshot commit.after := by
  have next : commit.after.nextSequence = commit.sequence := by
    change commit.delta.nextSequence = _
    rw [commit.delta_eq distinct]
    rfl
  refine ⟨next ▸ (planEffects_mem commit.planned).1, fun id => ?_⟩
  by_cases listed : id ∈ commit.delta.versions.map versionIdentity
  · right
    rw [commit.delta_eq distinct] at listed
    obtain ⟨_, member, rfl⟩ := List.mem_map.mp listed
    obtain ⟨effect, among, rfl⟩ := List.mem_map.mp member
    obtain ⟨u, member, first, last, outcome, -, high⟩ := commit.effect_source among
    rw [← outcome.identity_eq] at outcome
    exact ⟨u, member, outcome.identity_eq.symm, effect, first, last, outcome, next ▸ high,
      commit.effect_leaves distinct among⟩
  · left
    obtain ⟨collection, key⟩ := id
    have highWater := commit.after_versions_other listed
    cases collection with
    | none =>
      have work := commit.after_work_other distinct listed
      simp [RecordSnapshot.cell, work, highWater]
    | some collection =>
      have state := @Commit.after_state_other (collection, key) _ _ _ _ _ commit distinct listed
      simp [RecordSnapshot.cell, state, highWater]

theorem planCommitGroup_leaves :
    Planned group now schema snapshot (planCommitGroup group snapshot now schema).2 := by
  rcases planCommitGroup_cases group snapshot now schema distinct with
    ⟨e, failed⟩ | ⟨reason, -, rejected⟩ | ⟨commit, committed⟩
  · rw [failed]
    exact ⟨UInt64.le_refl _, fun _ => .inl rfl⟩
  · rw [rejected]
    exact ⟨UInt64.le_refl _, fun _ => .inl rfl⟩
  · rw [committed]
    exact commit.leaves distinct

theorem planCommitGroup_evolves (valid : SnapshotValid snapshot) :
    Evolves snapshot (planCommitGroup group snapshot now schema).2 := by
  have planned : Planned group now schema snapshot _ := planCommitGroup_leaves distinct
  refine evolves_of_cells valid planned.1 fun id => ?_
  rcases planned.2 id with same | ⟨u, -, names, effect, _, _, outcome, high, leaves⟩
  · exact .inl same
  have old (stored) (here : (snapshot.cell id).work = some stored) :
      WorkRowValid snapshot id.key stored := by
    obtain ⟨_ | collection, key⟩ := id
    · exact valid.work key stored here
    · cases here
  refine .inr ⟨effect, outcome.identity_eq.trans names, leaves, outcome.versioned,
    fun row => outcome.coherent fun stored here => (old stored here).coherent, fun row writes => ?_⟩
  rcases outcome.sequence_cases writes with ⟨stored, here, same⟩ | ⟨above, taken⟩
  · rw [same]
    exact ⟨(old stored here).inserted, UInt64.le_trans (old stored here).sequenced planned.1⟩
  · rw [taken]
    exact ⟨ne_zero_of_lt above, high⟩

end Commits

/-! ## Insert vectors -/

theorem insertGroup_addressed (request : InsertRequest) (snapshot : RecordSnapshot)
    (item : NewWork) : (insertGroup request snapshot item).addressed.Nodup := by
  rw [insertGroup]
  split <;> simp [CommitGroup.addressed]

/-- The group of an item inserts it or replaces the row at its key. -/
theorem insertGroup_updates {request : InsertRequest} {snapshot : RecordSnapshot} {item : NewWork}
    {u : GroupUpdate} (member : u ∈ updates (insertGroup request snapshot item)) :
    u = .insert item ∨ ∃ expected, u = .unclaimed ⟨item.key, expected, .replace item⟩ := by
  rw [insertGroup] at member
  split at member <;> simp [updates] at member
  · exact .inr ⟨_, member⟩
  · exact .inl member

section Inserts

variable [Sha256] {schema : QueueSchema}

/-- The plan of an item stops before its commit, or has the image of its commit. -/
theorem planInsertItem_cases (request : InsertRequest) (now : QueueResult Int64) (item : NewWork)
    (before : RecordSnapshot) :
    (planInsertItem request schema now before item).2 = before ∨ ∃ time, now = .ok time ∧
      (planInsertItem request schema now before item).2 =
        (planCommitGroup (insertGroup request before item) before time schema).2 := by
  cases now with
  | error e => exact .inl rfl
  | ok time =>
    refine .inr ⟨time, rfl, ?_⟩
    rw [planInsertItem]
    split
    · next failed => rw [failed]
    · next committed => rw [committed]

variable {R : RecordSnapshot → RecordSnapshot → Prop}
  (refl : ∀ s, R s s) (trans : ∀ {s t u}, R s t → R t u → R s u)

include refl trans

/-- A preorder that relates the ends of the commit of every item relates the ends of the vector. -/
theorem planInsertItems_relates (request : InsertRequest) {items : List NewWork}
    {clock : Nat → QueueResult Int64}
    (one : ∀ s item i time, i < items.length → clock i = .ok time →
      R s (planCommitGroup (insertGroup request s item) s time schema).2)
    (before : RecordSnapshot) : R before (planInsertItems request schema items clock before).2 := by
  induction items generalizing before clock with
  | nil => exact refl _
  | cons item items ih =>
    have first : R before (planInsertItem request schema (clock 0) before item).2 := by
      rcases planInsertItem_cases request (clock 0) item before with same | ⟨time, reading, there⟩
      · rw [same]
        exact refl _
      · rw [there]
        exact one before item 0 time (by simp) reading
    have later := fun image => @ih (fun i => clock (i + 1))
      (fun s item i time small => one s item (i + 1) time (Nat.succ_lt_succ small)) image
    rw [planInsertItems]
    split
    · next stopped => rwa [stopped] at first
    · next image planned =>
      rw [planned] at first
      refine trans first ?_
      have later := later image
      split
      · next failed => rwa [failed] at later
      · next done => rwa [done] at later

end Inserts

/-! ## Requests -/

section Requests

variable [Sha256] {schema : QueueSchema} {snapshot : RecordSnapshot} {key : String}
  {stored row : StoredWork} {token : List UInt8} {context : ClaimContext}

/-- What a claim has checked and what it leaves. -/
theorem planClaim_eq_ok (ok : planClaim stored token context = .ok row) :
    stored.active context.now = false ∧ stored.record.version < row.record.version ∧
      row = { stored with
        record := { stored.record with
          version := row.record.version
          attempts := row.record.attempts
          lifecycle := .leased
          leaseExpiresAt := some context.expiresAt }
        leaseHash := some (leaseHash token) } := by
  simp only [planClaim, planClaimMetadata, bind_eq_ok, rejectIf_eq_ok] at ok
  obtain ⟨_, -, view, -, _, -, _, -, _, eligible, _, -, _, -, _, small, _, -, ok⟩ := ok
  cases ok
  refine ⟨?_, ?_, rfl⟩
  · simp only [Bool.or_eq_false_iff, Bool.not_eq_false', Bool.or_eq_true, Bool.and_eq_true,
      decide_eq_true_eq] at eligible
    rcases eligible.1 with pending | ⟨leased, expired⟩
    · simp [StoredWork.active, pending]
    · cases expires : stored.record.leaseExpiresAt <;> simp_all [StoredWork.active]
  · have last : stored.record.version ≠ 18446744073709551615 := by simpa using small
    have next : increment stored.record.version "" = .ok (stored.record.version + 1) := if_neg last
    rw [UInt64.lt_iff_toNat_lt, increment_eq_ok next]
    exact Nat.lt_succ_self _

theorem storeClaim_evolves (valid : SnapshotValid snapshot)
    (found : snapshot.work[key]? = some stored) (ok : planClaim stored token context = .ok row) :
    Evolves snapshot (snapshot.storeClaim key row) := by
  obtain ⟨-, above, shape⟩ := planClaim_eq_ok ok
  have old := valid.work key stored found
  refine evolves_of_cells valid (UInt64.le_refl _) fun id => ?_
  by_cases same : ⟨none, key⟩ = id
  · subst same
    have before : snapshot.cell ⟨none, key⟩ = ⟨some stored, none, some stored.record.version⟩ := by
      simp [RecordSnapshot.cell, found, old.highWater]
    have after : (snapshot.storeClaim key row).cell ⟨none, key⟩ =
        ⟨some row, none, some row.record.version⟩ := by
      simp [RecordSnapshot.cell, RecordSnapshot.storeClaim]
    rw [before, after]
    refine .inr ⟨⟨⟨none, key⟩, row.record.version, .putWork row⟩, rfl,
      ⟨⟨?_, rfl⟩, rfl, fun written found => ?_, fun _ found => (by cases found)⟩, .inl above,
      fun written put => ?_, fun written put => ?_⟩
    · rw [shape, ← old.keyed]
      rfl
    · cases found
      refine ⟨row, .preserve, .preserve, rfl, ?_, .refl⟩
      rw [shape]
      rfl
    · cases put
      rw [shape]
      exact ⟨iff_of_true rfl rfl, iff_of_true rfl rfl⟩
    · cases put
      rw [shape]
      exact ⟨old.inserted, old.sequenced⟩
  · left
    clear shape
    obtain ⟨_ | collection, other⟩ := id <;>
    simp_all [RecordSnapshot.cell, RecordSnapshot.storeClaim, ExtTreeMap.getElem?_insert]

theorem perform_evolves {request : Request} (valid : SnapshotValid snapshot)
    (admitted : request.Admitted) : Evolves snapshot (request.perform schema snapshot) := by
  cases request with
  | commit group now => exact planCommitGroup_evolves admitted valid
  | insert request clock =>
    exact planInsertItems_relates (R := fun s t => SnapshotValid s → Evolves s t)
      (fun s valid => ⟨valid, fun _ => .refl _⟩)
      (fun first second valid => (first valid).trans (second (first valid).valid)) request
      (fun s item _ time _ _ => planCommitGroup_evolves (insertGroup_addressed request s item))
      snapshot valid
  | claim key token context =>
    rw [Request.perform]
    split
    · exact ⟨valid, fun _ => .refl _⟩
    · next stored found =>
      split
      · next row ok => exact storeClaim_evolves valid found ok
      · exact ⟨valid, fun _ => .refl _⟩
  | loadUnique probes owners =>
    exact evolves_of_cells valid (UInt64.le_refl _) fun id => .inl rfl

end Requests

/-! ## Histories -/

section Histories

variable [Sha256] {schema : QueueSchema} {before after : RecordSnapshot} {requests : List Request}

theorem Step.evolves {request : Request} (step : Step schema before request after)
    (valid : SnapshotValid before) : Evolves before after := by
  obtain ⟨admitted, rfl⟩ := step
  exact perform_evolves valid admitted

theorem run_foldl (before : RecordSnapshot) (admitted : ∀ request ∈ requests, request.Admitted) :
    Run (Step schema) before requests (requests.foldl (Request.perform schema) before) := by
  induction requests generalizing before with
  | nil => exact .nil _
  | cons request rest ih =>
    obtain ⟨first, later⟩ := forall_mem_cons.mp admitted
    exact .cons ⟨first, rfl⟩ (ih _ later)

def sampleStart : RecordSnapshot := sampleSnapshot (sampleRow ∅ .complete)

/-- A record is claimed, deleted by its holder and inserted again. -/
def sampleRequests : List Request :=
  [.claim "k" [1] ⟨0, 0, 10, 1⟩,
    .commit ⟨"d", [⟨"k", ⟨[1]⟩, 2, ⟨none, none, ∅, none⟩, .delete⟩], [], [], [], none⟩ 5,
    .insert ⟨sampleQueue, "i", .insertOnly, [⟨"k", 0, 0, ∅, []⟩]⟩ fun _ => .ok 6]

def sampleImage (requests : List Request) : RecordSnapshot :=
  requests.foldl (@Request.perform sampleSha256 sampleSchema) sampleStart

omit [Sha256] in
theorem sample_run : Run (@Step sampleSha256 sampleSchema) sampleStart sampleRequests
    (sampleImage sampleRequests) := by
  refine @run_foldl sampleSha256 _ _ _ ?_
  simp [sampleRequests, Request.Admitted, CommitGroup.addressed]

/-- Whatever is planned on an image that the planner accepts leaves an image that it accepts. -/
theorem history_accepted (accepted : validateSnapshot before = .ok ())
    (run : Run (Step schema) before requests after) : validateSnapshot after = .ok () := by
  rw [validateSnapshot_eq_ok] at accepted ⊢
  exact run.invariant accepted fun _ _ _ valid step => (step.evolves valid).valid

omit [Sha256] in
theorem history_accepted_sample : validateSnapshot (sampleImage sampleRequests) = .ok () :=
  @history_accepted sampleSha256 _ _ _ _ (by decide +kernel) sample_run

/-- No version is used twice, also for a record that was deleted in between: a row at the version
of an earlier row of its record has its content. -/
theorem history_versions (accepted : validateSnapshot before = .ok ())
    (run : Run (Step schema) before requests after) :
    (∀ id, (before.cell id).Follows (after.cell id)) ∧
    ∀ (key : String) (old new : StoredWork), before.work[key]? = some old →
      after.work[key]? = some new → new.record.version = old.record.version →
      SameContent new old := by
  rw [validateSnapshot_eq_ok] at accepted
  have follows := run.relates accepted (fun _ _ _ valid step => (step.evolves valid).valid)
    (fun s id => .refl (s.cell id)) (fun _ _ _ first second id => (first id).trans (second id))
    fun _ _ _ valid step => (step.evolves valid).follows
  refine ⟨follows, fun key old new was is same => ?_⟩
  rcases (follows ⟨none, key⟩).work new is with above | ⟨stored, here, content⟩
  · rw [show (before.cell ⟨none, key⟩).highWater = _ from (accepted.work key old was).highWater,
      same] at above
    exact absurd above (UInt64.lt_irrefl _)
  · cases was.symm.trans here
    exact content

omit [Sha256] in
theorem history_versions_sample :
    (sampleImage (sampleRequests.take 2)).work["k"]? = none ∧
    ((sampleImage sampleRequests).work["k"]?.map fun row => row.record.version) = some 4 ∧
    (sampleStart.cell ⟨none, "k"⟩).Follows ((sampleImage sampleRequests).cell ⟨none, "k"⟩) :=
  ⟨by decide +kernel, by decide +kernel,
    (@history_versions sampleSha256 _ _ _ _ (by decide +kernel) sample_run).1 _⟩

end Histories

end QueuePlanner
