import Fireweed.OwnershipFence

/-!
# Fence safety of ownership hand-off

A returned session outlives the lease it was won with, so what separates two
sessions is their fence epoch. Where every re-affirming call touches storage only
while it is still the recorded owner, a later assignment always has the greater
fence; without that condition a slow re-affirming call returns the fence of the
owner that took over.
-/

namespace OwnershipFence

open BTree Checked ControlPlane Domain Engine List Runs Std OwnershipFence.System

/-- A session of an assignment before the given one. -/
def OwnedSession.Before (session : OwnedSession) (incarnation : Nat) (epoch : UInt64) : Prop :=
  session.incarnation < incarnation ∨
    session.incarnation = incarnation ∧ session.leaseEpoch < epoch

/-- The lease of a call whose next step touches storage. -/
def Phase.storageLease : Phase → Option QueueLease
  | .probing _ lease | .fencing lease | .raising lease | .advancing lease => some lease
  | _ => none

/-- A re-affirming call on an ephemeral control plane touches storage only while the control plane
records its owner at its assignment epoch. -/
def StillOwner (ephemeral : Bool) (sys : System) (action : Action) : Prop :=
  ephemeral = true → ∀ id live call lease, action = .proceed id live →
    sys.calls[id]? = some call → call.phase.storageLease = some lease →
    lease.state = .assigned →
      sys.record.activeOwnerId = some call.owner ∧
        sys.record.assignmentEpoch = lease.assignmentEpoch

/-- The record does not move on from the last epoch, unless the control plane is restarted. -/
def HasRoom (before : System) (action : Action) (after : System) : Prop :=
  action ≠ .restart → Unwrapped before.record after.record

/-- A step that meets both conditions. -/
def GuardedStep (ephemeral : Bool) (ttl : UInt64) (before : System) (action : Action)
    (after : System) : Prop :=
  perform ephemeral ttl before action = some after ∧ StillOwner ephemeral before action ∧
    HasRoom before action after

/-! ## A slow re-affirmation -/

/-- A hundred seconds later. -/
def lateTime : UtcTimestamp := ⟨100, 0, UtcTimestamp.whole_normal⟩

/-- The first owner acquires, then re-affirms and stops before it reads the storage epoch; the
second owner acquires after the lease has lapsed; then the first call goes on. -/
def slowReaffirm : List Action :=
  [.start 1 "a" sampleTime, .proceed 1 true, .proceed 1 true, .proceed 1 true, .proceed 1 true,
    .proceed 1 true, .proceed 1 true,
    .start 2 "a" sampleTime, .proceed 2 true, .proceed 2 true,
    .start 3 "b" lateTime, .proceed 3 true, .proceed 3 true, .proceed 3 true, .proceed 3 true,
    .proceed 3 true, .proceed 3 true,
    .proceed 2 true]

/-- Two owners hold the same fence, and the earlier assignment does not have the smaller one. -/
theorem slow_reaffirm_shares_fence :
    ∃ sys, Run (fun s a t => perform true 15000 s a = some t) (.initial 0) slowReaffirm sys ∧
      sys.sessions = [⟨"a", 1, 1, 0⟩, ⟨"b", 2, 2, 0⟩, ⟨"a", 1, 2, 0⟩] := by
  have returned : (runAll (perform true 15000) (.initial 0) slowReaffirm).map System.sessions =
      some [⟨"a", 1, 1, 0⟩, ⟨"b", 2, 2, 0⟩, ⟨"a", 1, 2, 0⟩] := by
    decide +kernel
  obtain ⟨sys, performed, sessions⟩ := Option.map_eq_some_iff.mp returned
  exact ⟨sys, runAll_run (fun _ _ _ here => here) performed, sessions⟩

/-! ## The invariant -/

/-- The owner each assignment was granted to. -/
abbrev GrantMap := Nat → UInt64 → Option OwnerId

section Invariant

variable (ephemeral : Bool) (grants : GrantMap) (sys : System)

/-- Every session before an assignment of this incarnation has a fence below the bound. -/
def Below (epoch : UInt64) (bound : Nat) : Prop :=
  ∀ session ∈ sys.sessions, session.Before sys.incarnation epoch → session.fenceEpoch < bound

/-- A prior record that shows a confirmed assignment of the owner. -/
def PriorSound (owner : OwnerId) (prior : Option QueueLease) : Prop :=
  ∀ p, prior = some p → p.activeOwnerId = some owner → p.state ≠ .pendingFence →
    p.assignmentEpoch ≤ sys.record.assignmentEpoch ∧ Below sys p.assignmentEpoch sys.storage

/-- What holds of a call in each phase. -/
def CallSound (call : PendingCall) : Prop :=
  match call.phase with
  | .reading => True
  | .acquiring prior => ephemeral = true → PriorSound sys call.owner prior
  | .probing prior lease =>
    (ephemeral = true → PriorSound sys call.owner prior) ∧
      grants sys.incarnation lease.assignmentEpoch = some call.owner ∧
      (lease.state = .pendingFence ∨ lease.state = .assigned)
  | .fencing lease | .raising lease =>
    grants sys.incarnation lease.assignmentEpoch = some call.owner ∧
      (lease.state = .pendingFence ∨ lease.state = .assigned) ∧
      Below sys lease.assignmentEpoch lease.assignmentEpoch.toNat
  | .advancing lease =>
    grants sys.incarnation lease.assignmentEpoch = some call.owner ∧
      (lease.state = .pendingFence ∨ lease.state = .assigned) ∧ ephemeral = true
  | .confirming lease fence =>
    grants sys.incarnation lease.assignmentEpoch = some call.owner ∧ fence ≤ sys.storage ∧
      Below sys lease.assignmentEpoch fence ∧
      (ephemeral = false → fence = lease.assignmentEpoch.toNat)
  | .failing _ => True

structure Sound : Prop where
  named : Named sys.record
  holder : ∀ o, sys.record.activeOwnerId = some o →
    grants sys.incarnation sys.record.assignmentEpoch = some o
  past : ∀ k e o, grants k e = some o →
    k ≤ sys.incarnation ∧ (k = sys.incarnation → e ≤ sys.record.assignmentEpoch)
  durable : ephemeral = false → sys.incarnation = 0
  granted : ∀ s ∈ sys.sessions, grants s.incarnation s.leaseEpoch = some s.owner
  bounded : ∀ s ∈ sys.sessions, s.fenceEpoch ≤ sys.storage
  ordered : ∀ s ∈ sys.sessions, ∀ s' ∈ sys.sessions,
    s.Before s'.incarnation s'.leaseEpoch → s.fenceEpoch < s'.fenceEpoch
  equal : ephemeral = false → ∀ s ∈ sys.sessions, s.fenceEpoch = s.leaseEpoch.toNat
  serving : ephemeral = true → sys.record.state = .assigned ∨ sys.record.state = .draining →
    Below sys sys.record.assignmentEpoch sys.storage
  calls : ∀ (id : Nat) (call : PendingCall), sys.calls[id]? = some call →
    CallSound ephemeral grants sys call

end Invariant

variable {ephemeral : Bool} {call : PendingCall} {lease : QueueLease} {prior : Option QueueLease}
  {ttl : UInt64}

/-- A call stays sound when the grants of its owner stay, storage only grows, and bounds on earlier
sessions are kept. -/
theorem CallSound.mono {grants grants' : GrantMap} {sys sys' : System}
    (sound : CallSound ephemeral grants sys call) (incarnation : sys'.incarnation = sys.incarnation)
    (granted : ∀ e, grants sys.incarnation e = some call.owner →
      grants' sys.incarnation e = some call.owner) (storage : sys.storage ≤ sys'.storage)
    (prior : ephemeral = true → ∀ prior, PriorSound sys call.owner prior →
      PriorSound sys' call.owner prior)
    (below : ∀ e bound, grants sys.incarnation e = some call.owner →
      (ephemeral = false → e.toNat ≤ bound) → Below sys e bound → Below sys' e bound) :
    CallSound ephemeral grants' sys' call := by
  rw [CallSound] at sound ⊢
  rw [incarnation]
  cases phase : call.phase with
  | reading => trivial
  | acquiring p =>
    rw [phase] at sound
    exact fun eph => prior eph _ (sound eph)
  | probing p l =>
    rw [phase] at sound
    exact ⟨fun eph => prior eph _ (sound.1 eph), granted _ sound.2.1, sound.2.2⟩
  | fencing l | raising l =>
    rw [phase] at sound
    exact ⟨granted _ sound.1, sound.2.1, below _ _ sound.1 (fun _ => Nat.le_refl _) sound.2.2⟩
  | advancing l =>
    rw [phase] at sound
    exact ⟨granted _ sound.1, sound.2⟩
  | confirming l f =>
    rw [phase] at sound
    exact ⟨granted _ sound.1, Nat.le_trans sound.2.1 storage,
      below _ _ sound.1 (fun durable => (sound.2.2.2 durable).ge) sound.2.2.1, sound.2.2.2⟩
  | failing l => trivial

namespace Sound

variable {ephemeral : Bool} {grants : GrantMap} {sys : System} {id : Nat} {call : PendingCall}

theorem initial (storage : Nat) : Sound ephemeral (fun _ _ => none) (.initial storage) := by
  constructor
  · simp [Named, System.initial, QueueLease.unassigned]
  · intro o named
    cases named
  · intro k e o granted
    cases granted
  · exact fun _ => rfl
  · intro s member
    cases member
  · intro s member
    cases member
  · intro s member
    cases member
  · intro _ s member
    cases member
  · intro _ state
    rcases state with state | state <;> cases state
  · intro id call found
    simp [System.initial] at found

section

variable (sound : Sound ephemeral grants sys)

include sound

theorem drop (id : Nat) : Sound ephemeral grants (sys.drop id) := by
  refine { sound with calls := fun other call found => ?_ }
  rw [System.drop, get_erase] at found
  split at found
  · cases found
  · exact sound.calls other call found

theorem goto {phase : Phase} (next : CallSound ephemeral grants sys { call with phase := phase }) :
    Sound ephemeral grants (sys.goto id call phase) := by
  refine { sound with calls := fun other stored found => ?_ }
  rw [System.goto, get_insert] at found
  split at found
  · cases found
    exact next
  · exact sound.calls other stored found

/-- A decision that keeps the epoch and the owner. -/
theorem setRecord (kept : Kept sys.record lease)
    (serving : ephemeral = true → lease.state = .assigned ∨ lease.state = .draining →
      Below sys sys.record.assignmentEpoch sys.storage) :
    Sound ephemeral grants { sys with record := lease } := by
  refine ⟨kept.named sound.named, ?_, ?_, sound.durable, sound.granted, sound.bounded,
    sound.ordered, sound.equal, ?_, ?_⟩
  · intro o named
    change grants sys.incarnation lease.assignmentEpoch = some o
    rw [kept.epoch]
    exact sound.holder o (kept.owner o named)
  · intro k e o granted
    change k ≤ sys.incarnation ∧ (k = sys.incarnation → e ≤ lease.assignmentEpoch)
    rw [kept.epoch]
    exact sound.past k e o granted
  · intro eph state
    change Below sys lease.assignmentEpoch sys.storage
    rw [kept.epoch]
    exact serving eph state
  · intro id call found
    refine (sound.calls id call found).mono rfl (fun _ held => held) (Nat.le_refl _)
      (fun _ prior holds p same named state => ?_) (fun _ _ _ _ below => below)
    change p.assignmentEpoch ≤ lease.assignmentEpoch ∧ _
    rw [kept.epoch]
    exact holds p same named state

/-- Storage only grows, and every bound by the storage epoch with it. -/
theorem raise : Sound ephemeral grants sys.raise := by
  have wider : ∀ e, Below sys e sys.storage → Below sys.raise e sys.raise.storage :=
    fun e below session member before => Nat.lt_succ_of_lt (below session member before)
  refine { sound with
    bounded := fun s member => Nat.le_succ_of_le (sound.bounded s member)
    serving := fun eph state => wider _ (sound.serving eph state)
    calls := fun id call found => ?_ }
  exact (sound.calls id call found).mono rfl (fun _ held => held) (Nat.le_succ _)
    (fun _ prior holds p same named state =>
      ⟨(holds p same named state).1, wider _ (holds p same named state).2⟩)
    (fun _ _ _ _ below => below)

end

section

variable (sound : Sound ephemeral grants sys) {lease : QueueLease} {fence : Nat}
  (granted : grants sys.incarnation lease.assignmentEpoch = some call.owner)
  (within : fence ≤ sys.storage) (below : Below sys lease.assignmentEpoch fence)
  (equal : ephemeral = false → fence = lease.assignmentEpoch.toNat)

include sound granted within below equal

/-- Returning a session whose fence is above every earlier one. On an ephemeral control plane it is
a session of the recorded assignment. -/
theorem return_ (current : ephemeral = true → lease.assignmentEpoch = sys.record.assignmentEpoch) :
    Sound ephemeral grants (sys.return_ id call lease fence) := by
  -- A bound on the earlier sessions is kept: the new session is no earlier one, or it is exact.
  have keep : ∀ (e : UInt64) (bound : Nat), e ≤ sys.record.assignmentEpoch →
      (ephemeral = false → e.toNat ≤ bound) → Below sys e bound →
      Below (sys.return_ id call lease fence) e bound := by
    intro e bound upto exact_ holds session member before
    rcases mem_append.mp member with old | new
    · exact holds session old before
    · rw [mem_singleton] at new
      subst new
      rcases before with before | ⟨-, before⟩
      · exact absurd before (Nat.lt_irrefl _)
      · cases eph : ephemeral with
        | false =>
          have first := equal eph
          have second := exact_ eph
          rw [UInt64.lt_iff_toNat_lt] at before
          simp only at before ⊢
          omega
        | true =>
          rw [← current eph] at upto
          exact absurd before (UInt64.not_lt.mpr upto)
  refine ⟨sound.named, sound.holder, sound.past, sound.durable, ?_, ?_, ?_, ?_, ?_, ?_⟩
  · exact forall_mem_snoc sound.granted granted
  · exact forall_mem_snoc sound.bounded within
  · intro s member s' member' before
    rcases mem_append.mp member with old | new
    · rcases mem_append.mp member' with old' | new'
      · exact sound.ordered s old s' old' before
      · rw [mem_singleton] at new'
        subst new'
        exact below s old before
    · rw [mem_singleton] at new
      subst new
      rcases mem_append.mp member' with old' | new'
      · obtain ⟨inc, epoch⟩ := sound.past _ _ _ (sound.granted s' old')
        rcases before with before | ⟨same, before⟩
        · simp only at before
          omega
        · cases eph : ephemeral with
          | false =>
            have first := equal eph
            have second := sound.equal eph s' old'
            rw [UInt64.lt_iff_toNat_lt] at before
            simp only at before ⊢
            omega
          | true =>
            have upto := epoch same.symm
            rw [← current eph] at upto
            exact absurd before (UInt64.not_lt.mpr upto)
      · rw [mem_singleton] at new'
        subst new'
        rcases before with before | ⟨-, before⟩
        · exact absurd before (Nat.lt_irrefl _)
        · exact absurd before (UInt64.lt_irrefl _)
  · intro eph s member
    rcases mem_append.mp member with old | new
    · exact sound.equal eph s old
    · rw [mem_singleton] at new
      subst new
      exact equal eph
  · exact fun eph state => keep _ _ (UInt64.le_refl _) (fun durable => by
      rw [eph] at durable
      cases durable) (sound.serving eph state)
  · intro other stored found
    rw [System.return_, get_erase] at found
    split at found
    · cases found
    refine (sound.calls other stored found).mono rfl (fun _ held => held) (Nat.le_refl _)
      (fun eph prior holds p same named state => ?_)
      (fun e bound held => keep e bound ((sound.past _ _ _ held).2 rfl))
    obtain ⟨upto, bound⟩ := holds p same named state
    refine ⟨upto, keep _ _ upto (fun durable => ?_) bound⟩
    rw [eph] at durable
    cases durable

theorem settle
    (current : ephemeral = true → lease.state ≠ .pendingFence →
      lease.assignmentEpoch = sys.record.assignmentEpoch) :
    Sound ephemeral grants (sys.settle id call lease fence) := by
  rw [System.settle]
  split
  · exact sound.goto ⟨granted, within, below, equal⟩
  · next affirmed => exact sound.return_ granted within below equal fun eph => current eph affirmed

end

section

variable (sound : Sound ephemeral grants sys)

include sound

variable {owner : OwnerId} {epoch : UInt64} {now : UtcTimestamp}

theorem grant (room : Unwrapped sys.record lease)
    (named : lease.activeOwnerId = some owner) (state : lease.state = .pendingFence)
    (epoch : lease.assignmentEpoch = sys.record.assignmentEpoch + 1) :
    Sound ephemeral
      (fun k e =>
        if k = sys.incarnation ∧ e = lease.assignmentEpoch then some owner else grants k e)
      { sys with record := lease } := by
  have greater := room.lt epoch
  have keep : ∀ k e o, grants k e = some o →
      (if k = sys.incarnation ∧ e = lease.assignmentEpoch then some owner else grants k e) =
        some o := by
    intro k e o held
    rw [if_neg, held]
    rintro ⟨rfl, rfl⟩
    exact absurd ((sound.past _ _ _ held).2 rfl) (UInt64.not_le.mpr greater)
  refine ⟨by simp [Named, named, state], ?_, ?_, sound.durable,
    fun s member => keep _ _ _ (sound.granted s member), sound.bounded, sound.ordered, sound.equal,
    ?_, ?_⟩
  · intro o same
    cases named.symm.trans same
    exact if_pos ⟨rfl, rfl⟩
  · intro k e o held
    by_cases here : k = sys.incarnation ∧ e = lease.assignmentEpoch
    · obtain ⟨rfl, rfl⟩ := here
      exact ⟨Nat.le_refl _, fun _ => UInt64.le_refl _⟩
    · rw [if_neg here] at held
      obtain ⟨inc, upto⟩ := sound.past k e o held
      exact ⟨inc, fun same => UInt64.le_trans (upto same) (UInt64.le_of_lt greater)⟩
  · intro _ serving
    change lease.state = _ ∨ lease.state = _ at serving
    rw [state] at serving
    rcases serving with serving | serving <;> cases serving
  · intro id call found
    refine (sound.calls id call found).mono rfl (fun e held => keep _ e _ held) (Nat.le_refl _)
      (fun _ prior holds p same named state => ?_) (fun _ _ _ _ below => below)
    obtain ⟨upto, bound⟩ := holds p same named state
    exact ⟨UInt64.le_trans upto (UInt64.le_of_lt greater), bound⟩

theorem renewed :
    Sound ephemeral grants (sys.decideWith (leaseDecideRenew sys.record owner epoch now ttl)) := by
  unfold decideWith
  split
  · next lease ok =>
    refine sound.setRecord (kept_of_renew ok) fun eph state => sound.serving eph ?_
    obtain ⟨-, -, -, -, expiry, rfl, -⟩ := renew_eq_ok ok
    exact state
  · exact sound

theorem drained {target : OwnerId} :
    Sound ephemeral grants
      (sys.decideWith (leaseDecideBeginDrain sys.record epoch target now)) := by
  unfold decideWith
  split
  · next lease ok =>
    refine sound.setRecord (kept_of_beginDrain ok) fun eph _ => sound.serving eph (.inl ?_)
    obtain ⟨-, -, serving, -⟩ := beginDrain_eq_ok ok
    exact serving
  · exact sound

theorem released (ok : leaseDecideRelease sys.record owner epoch = .ok lease) :
    Sound ephemeral grants { sys with record := lease } := by
  refine sound.setRecord (kept_of_release ok) fun _ serving => ?_
  obtain ⟨-, -, rfl⟩ := release_eq_ok ok
  rcases serving with serving | serving <;> cases serving

end

theorem restarted (sound : Sound true grants sys) :
    Sound true grants
      { sys with record := .unassigned, incarnation := sys.incarnation + 1, calls := ∅ } := by
  refine ⟨by simp [Named, QueueLease.unassigned], ?_, ?_, ?_, sound.granted, sound.bounded,
    sound.ordered, sound.equal, ?_, ?_⟩
  · intro o named
    cases named
  · intro k e o held
    have inc := (sound.past k e o held).1
    refine ⟨Nat.le_succ_of_le inc, fun same => ?_⟩
    simp only at same
    omega
  · intro durable
    cases durable
  · intro _ serving
    rcases serving with serving | serving <;> cases serving
  · intro id call found
    simp at found

/-- A session of every assignment before one that is not below storage stays below storage. -/
theorem below_storage (sound : Sound ephemeral grants sys) (e : UInt64) {bound : Nat}
    (above : sys.storage < bound) : Below sys e bound :=
  fun s member _ => Nat.lt_of_le_of_lt (sound.bounded s member) above

theorem established (sound : Sound ephemeral grants sys) (found : sys.calls[id]? = some call)
    (phase : call.phase = .probing prior lease)
    (current : ephemeral = true → lease.state = .assigned →
      lease.assignmentEpoch = sys.record.assignmentEpoch) :
    Sound ephemeral grants (sys.establish ephemeral id call prior lease) := by
  have here := sound.calls id call found
  rw [CallSound, phase] at here
  obtain ⟨priorSound, granted, state⟩ := here
  simp only [establish]
  split
  · next low => exact sound.goto ⟨granted, state, sound.below_storage _ low⟩
  · split
    · next eph =>
      split
      · next same =>
        -- The prior record shows this assignment confirmed, so storage was raised for it.
        cases prior with
        | none => cases same
        | some p =>
        simp only [sameSession, Option.any_some, Bool.and_eq_true, beq_iff_eq,
          decide_eq_true_eq] at same
        obtain ⟨⟨named, epoch⟩, confirmed⟩ := same
        obtain ⟨-, below⟩ := priorSound eph p rfl named confirmed
        refine sound.settle granted (Nat.le_refl _) (epoch ▸ below) (fun durable => ?_)
          fun _ affirmed => current eph (state.resolve_left affirmed)
        rw [eph] at durable
        cases durable
      · exact sound.goto ⟨granted, state, eph⟩
    · next durable =>
      have durable : ephemeral = false := by simpa using durable
      split
      · refine sound.goto ⟨granted, state, ?_⟩
        rintro s member (before | ⟨-, before⟩)
        · rw [sound.durable durable] at before
          omega
        · rw [sound.equal durable s member]
          exact UInt64.lt_iff_toNat_lt.mp before
      · exact sound.goto trivial

theorem fenceLooped (sound : Sound ephemeral grants sys)
    (granted : grants sys.incarnation lease.assignmentEpoch = some call.owner)
    (state : lease.state = .pendingFence ∨ lease.state = .assigned)
    (below : Below sys lease.assignmentEpoch lease.assignmentEpoch.toNat)
    (current : ephemeral = true → lease.state = .assigned →
      lease.assignmentEpoch = sys.record.assignmentEpoch) :
    Sound ephemeral grants (sys.fenceLoop id call lease) := by
  simp only [fenceLoop]
  split
  · exact sound.goto trivial
  · split
    · exact sound.goto ⟨granted, state, below⟩
    · next low high =>
      have same : sys.storage = lease.assignmentEpoch.toNat := by omega
      refine sound.settle granted (Nat.le_refl _) (same ▸ below) (fun _ => same) ?_
      exact fun eph affirmed => current eph (state.resolve_left affirmed)

end Sound

/-! ## Steps and runs -/

section Steps

variable {ephemeral : Bool} {ttl : UInt64} {grants : GrantMap} {before after : System}

theorem acquire_sound (sound : Sound ephemeral grants before) {id : Nat}
    (found : before.calls[id]? = some call) (phase : call.phase = .acquiring prior)
    (room : Unwrapped before.record lease)
    (acquired : leaseDecideAcquire before.record call.owner call.now ttl = .acquired lease) :
    ∃ grants', Sound ephemeral grants'
      ({ before with record := lease }.goto id call (.probing prior lease)) := by
  have here := sound.calls id call found
  rw [CallSound, phase] at here
  obtain ⟨-, named, -, form⟩ := acquire_cases acquired
  rcases form with ⟨held, confirmed, state, epoch⟩ | ⟨-, state, epoch⟩
  · -- A re-affirmation keeps the record's epoch and owner.
    have kept : Kept before.record lease :=
      ⟨epoch, fun o same => by rw [← same, named, held], fun _ => by simp [Named, named, state]⟩
    have serving : before.record.state = .assigned ∨ before.record.state = .draining := by
      have named := sound.named
      rw [Named, held] at named
      cases recorded : before.record.state with
      | unassigned => exact absurd (named.mpr recorded) (by simp)
      | pendingFence => exact absurd recorded confirmed
      | assigned => exact .inl rfl
      | draining => exact .inr rfl
    have next := sound.setRecord kept fun eph _ => sound.serving eph serving
    refine ⟨grants, next.goto ⟨fun eph p same owner state => ?_, ?_, .inr state⟩⟩
    · obtain ⟨upto, below⟩ := here eph p same owner state
      exact ⟨epoch ▸ upto, below⟩
    · change grants before.incarnation lease.assignmentEpoch = _
      rw [epoch]
      exact sound.holder _ held
  · have next := sound.grant room named state epoch
    refine ⟨_, next.goto ⟨fun eph p same owner state => ?_, if_pos ⟨rfl, rfl⟩, .inl state⟩⟩
    obtain ⟨upto, below⟩ := here eph p same owner state
    exact ⟨UInt64.le_trans upto (UInt64.le_of_lt (room.lt epoch)), below⟩

theorem proceed_sound (sound : Sound ephemeral grants before) {id : Nat} (ownerLive : Bool)
    (found : before.calls[id]? = some call)
    (current : ephemeral = true → ∀ lease, call.phase.storageLease = some lease →
      lease.state = .assigned → lease.assignmentEpoch = before.record.assignmentEpoch)
    (room : Unwrapped before.record (before.proceed ephemeral ttl id call ownerLive).record) :
    ∃ grants', Sound ephemeral grants' (before.proceed ephemeral ttl id call ownerLive) := by
  have here := sound.calls id call found
  rw [proceed]
  rw [CallSound] at here
  cases phase : call.phase with
  | reading =>
    refine ⟨grants, sound.goto fun eph p same named confirmed => ?_⟩
    simp only [eph, if_true, Option.some.injEq] at same
    subst same
    refine ⟨UInt64.le_refl _, sound.serving eph ?_⟩
    have holds := sound.named
    rw [Named, named] at holds
    cases recorded : before.record.state with
    | unassigned => exact absurd (holds.mpr recorded) (by simp)
    | pendingFence => exact absurd recorded confirmed
    | assigned => exact .inl rfl
    | draining => exact .inr rfl
  | acquiring prior =>
    simp only [proceed, phase] at room ⊢
    split
    · next live =>
      rw [if_pos live] at room
      cases acquired : leaseDecideAcquire before.record call.owner call.now ttl with
      | acquired lease =>
        rw [acquired] at room
        exact acquire_sound sound found phase room acquired
      | rejected held => exact ⟨grants, sound.drop id⟩
    · exact ⟨grants, sound.drop id⟩
  | probing prior lease =>
    exact ⟨grants, sound.established found phase fun eph => current eph lease (by rw [phase]; rfl)⟩
  | fencing lease =>
    rw [phase] at here
    obtain ⟨granted, state, below⟩ := here
    exact ⟨grants, sound.fenceLooped granted state below fun eph =>
      current eph lease (by rw [phase]; rfl)⟩
  | raising lease =>
    rw [phase] at here
    obtain ⟨granted, state, below⟩ := here
    exact ⟨grants, sound.raise.fenceLooped granted state below fun eph =>
      current eph lease (by rw [phase]; rfl)⟩
  | advancing lease =>
    rw [phase] at here
    obtain ⟨granted, state, eph⟩ := here
    refine ⟨grants, sound.raise.settle granted (Nat.le_refl _) ?_ (fun durable => ?_) ?_⟩
    · exact fun s member _ => Nat.lt_succ_of_le (sound.bounded s member)
    · rw [eph] at durable
      cases durable
    · exact fun eph affirmed =>
        current eph lease (by rw [phase]; rfl) (state.resolve_left affirmed)
  | confirming lease fence =>
    rw [phase] at here
    obtain ⟨granted, within, below, equal⟩ := here
    dsimp only
    cases decided : leaseDecideConfirmFence before.record call.owner lease.assignmentEpoch
        call.now with
    | error e =>
      refine ⟨grants, sound.goto ?_⟩
      trivial
    | ok confirmed =>
      obtain ⟨-, epoch, -, -, same⟩ := confirm_eq_ok decided
      have next := sound.setRecord (kept_of_confirm decided) fun _ _ s member earlier =>
        Nat.lt_of_lt_of_le (below s member (epoch ▸ earlier)) within
      refine ⟨grants, next.return_ granted within below equal fun _ => ?_⟩
      rw [same]
      exact epoch.symm
  | failing lease =>
    dsimp only
    cases decided : leaseDecideRelease before.record call.owner lease.assignmentEpoch with
    | error e => exact ⟨grants, sound.drop id⟩
    | ok released => exact ⟨grants, (sound.released decided).drop id⟩

/-- Every guarded step keeps the invariant. -/
theorem step_sound (sound : Sound ephemeral grants before) {action : Action}
    (step : GuardedStep ephemeral ttl before action after) :
    ∃ grants', Sound ephemeral grants' after := by
  obtain ⟨performed, current, room⟩ := step
  cases action with
  | start id owner now =>
    rw [perform] at performed
    split at performed
    · cases performed
    · cases performed
      exact ⟨grants, { sound with calls := forall_insert trivial sound.calls }⟩
  | proceed id live =>
    obtain ⟨call, found, rfl⟩ := Option.map_eq_some_iff.mp performed
    exact proceed_sound sound live found
      (fun eph lease phase affirmed =>
        (current eph id live call lease rfl found phase affirmed).2.symm)
      (room (by simp))
  | abandon id =>
    cases performed
    exact ⟨grants, sound.drop id⟩
  | renew owner epoch now =>
    cases performed
    exact ⟨grants, sound.renewed⟩
  | beginDrain epoch target now =>
    cases performed
    exact ⟨grants, sound.drained⟩
  | release owner epoch =>
    cases performed
    cases decided : leaseDecideRelease before.record owner epoch with
    | error e => exact ⟨grants, sound⟩
    | ok lease => exact ⟨grants, sound.released decided⟩
  | restart =>
    rw [perform] at performed
    split at performed
    · next eph =>
      cases performed
      subst eph
      exact ⟨grants, sound.restarted⟩
    · cases performed

end Steps

/-- The fences of the sessions returned so far. -/
structure FenceSafe (ephemeral : Bool) (sys : System) : Prop where
  distinct : ∀ s ∈ sys.sessions, ∀ s' ∈ sys.sessions,
    s.owner ≠ s'.owner ∨ s.incarnation ≠ s'.incarnation ∨ s.leaseEpoch ≠ s'.leaseEpoch →
      s.fenceEpoch ≠ s'.fenceEpoch
  increasing : ∀ s ∈ sys.sessions, ∀ s' ∈ sys.sessions,
    s.Before s'.incarnation s'.leaseEpoch → s.fenceEpoch < s'.fenceEpoch
  fenced : ∀ s ∈ sys.sessions, ∀ s' ∈ sys.sessions,
    s.Before s'.incarnation s'.leaseEpoch →
      resolveWriteEpoch sys.storage (some s.fenceEpoch) = .error .epochFenced
  equal : ephemeral = false → ∀ s ∈ sys.sessions, s.fenceEpoch = s.leaseEpoch.toNat

theorem Sound.safe {grants : GrantMap} {sys : System} (sound : Sound ephemeral grants sys) :
    FenceSafe ephemeral sys := by
  refine ⟨?_, sound.ordered, ?_, sound.equal⟩
  · intro s member s' member' different same
    have apart : s.incarnation ≠ s'.incarnation ∨ s.leaseEpoch ≠ s'.leaseEpoch := by
      by_contra both
      push Not at both
      have first := sound.granted s member
      have second := sound.granted s' member'
      rw [both.1, both.2, second, Option.some.injEq] at first
      rcases different with owners | others
      · exact owners first.symm
      · exact others.elim (· both.1) (· both.2)
    have forward := sound.ordered s member s' member'
    have backward := sound.ordered s' member' s member
    rcases Nat.lt_trichotomy s.incarnation s'.incarnation with less | equal | greater
    · have := forward (.inl less)
      omega
    · have epochs := apart.resolve_left (not_not.mpr equal)
      rcases UInt64.lt_or_lt_of_ne epochs with less | greater
      · have := forward (.inr ⟨equal, less⟩)
        omega
      · have := backward (.inr ⟨equal.symm, greater⟩)
        omega
    · have := backward (.inl greater)
      omega
  · intro s member s' member' before
    have less := sound.ordered s member s' member' before
    have within := sound.bounded s' member'
    have stale : (s.fenceEpoch != sys.storage) = true := by
      rw [bne_iff_ne]
      omega
    simp [resolveWriteEpoch, resolveBoundedEpoch, stale, rejectIf]

/-- In every state of a run of guarded steps, from any storage epoch, the fences are safe. -/
theorem guardedRun_fenceSafe {ephemeral : Bool} {ttl : UInt64} {storage : Nat}
    {actions : List Action} {sys : System}
    (run : Run (GuardedStep ephemeral ttl) (.initial storage) actions sys) :
    FenceSafe ephemeral sys := by
  obtain ⟨grants, sound⟩ := run.invariant (P := fun sys => ∃ grants, Sound ephemeral grants sys)
    ⟨_, .initial storage⟩ (fun _ _ _ ⟨_, sound⟩ step => step_sound sound step)
  exact sound.safe

/-- The condition on storage steps, evaluated. -/
def stillOwner (ephemeral : Bool) (sys : System) : Action → Bool
  | .proceed id _ => (sys.calls[id]?).all fun call =>
      !ephemeral || call.phase.storageLease.all fun lease =>
        lease.state != .assigned || sys.record.activeOwnerId == some call.owner &&
          sys.record.assignmentEpoch == lease.assignmentEpoch
  | _ => true

def performGuarded (ephemeral : Bool) (ttl : UInt64) (sys : System) (action : Action) :
    Option System :=
  (perform ephemeral ttl sys action).filter fun after => stillOwner ephemeral sys action &&
    (action == .restart || decide (Unwrapped sys.record after.record))

theorem performGuarded_step (before : System) (action : Action) (after : System)
    (performed : performGuarded ephemeral ttl before action = some after) :
    GuardedStep ephemeral ttl before action after := by
  rw [performGuarded, Option.filter_eq_some_iff, Bool.and_eq_true, Bool.or_eq_true] at performed
  obtain ⟨performed, owns, room⟩ := performed
  refine ⟨performed, ?_, fun other => ?_⟩
  · rintro rfl id live call lease rfl found phase affirmed
    simp only [stillOwner, found, Option.all_some, phase, affirmed] at owns
    simpa using owns
  · exact of_decide_eq_true (room.resolve_left (by simpa using other))

/-- The first owner acquires and re-affirms, the second takes over a lapsed lease, and after a
restart of the control plane the first acquires again. -/
def handOver : List Action :=
  [.start 1 "a" sampleTime, .proceed 1 true, .proceed 1 true, .proceed 1 true, .proceed 1 true,
    .proceed 1 true, .proceed 1 true,
    .start 2 "a" sampleTime, .proceed 2 true, .proceed 2 true, .proceed 2 true,
    .start 3 "b" lateTime, .proceed 3 true, .proceed 3 true, .proceed 3 true, .proceed 3 true,
    .proceed 3 true, .proceed 3 true,
    .restart,
    .start 4 "a" lateTime, .proceed 4 true, .proceed 4 true, .proceed 4 true, .proceed 4 true,
    .proceed 4 true]

theorem guardedRun_fenceSafe_handOver :
    ∃ sys, Run (GuardedStep true 15000) (.initial 0) handOver sys ∧
      sys.sessions = [⟨"a", 1, 1, 0⟩, ⟨"a", 1, 1, 0⟩, ⟨"b", 2, 2, 0⟩, ⟨"a", 1, 3, 1⟩] ∧
      FenceSafe true sys := by
  have returned : (runAll (performGuarded true 15000) (.initial 0) handOver).map System.sessions =
      some [⟨"a", 1, 1, 0⟩, ⟨"a", 1, 1, 0⟩, ⟨"b", 2, 2, 0⟩, ⟨"a", 1, 3, 1⟩] := by
    decide +kernel
  obtain ⟨sys, performed, sessions⟩ := Option.map_eq_some_iff.mp returned
  have run := runAll_run performGuarded_step performed
  exact ⟨sys, run, sessions, guardedRun_fenceSafe run⟩

end OwnershipFence
