import Fireweed.ControlPlane
import Fireweed.Runs

/-!
# Assignment epochs

What a whole run of calls does to the authority records: an epoch never
decreases, names one owner in one tenure, and once it is superseded no
credential that carries it is accepted.
-/

namespace ControlPlane

open BTree Checked Domain Engine Runs Std InMemory CpState

/-! ## One record -/

section Record

variable {current lease : QueueLease} {owner : OwnerId} {epoch ttl : UInt64} {now : UtcTimestamp}

/-- An acquisition re-affirms the recorded owner or grants the next epoch. -/
theorem acquire_cases (acquired : leaseDecideAcquire current owner now ttl = .acquired lease) :
    (current.isLive now = true → current.activeOwnerId = some owner ∧
      current.state ≠ .pendingFence) ∧
    lease.activeOwnerId = some owner ∧ lease.leaseExpiresAt = some (now.addMillis ttl) ∧
    ((current.activeOwnerId = some owner ∧ current.state ≠ .pendingFence ∧
        lease.state = .assigned ∧ lease.assignmentEpoch = current.assignmentEpoch) ∨
      (¬(current.activeOwnerId = some owner ∧ current.state ≠ .pendingFence) ∧
        lease.state = .pendingFence ∧ lease.assignmentEpoch = current.assignmentEpoch + 1)) := by
  rw [leaseDecideAcquire] at acquired
  split at acquired
  · cases acquired
  · next free =>
    cases acquired
    refine ⟨fun live => ?_, rfl, rfl, ?_⟩
    · simpa [live] using free
    · by_cases same : current.activeOwnerId = some owner ∧ current.state ≠ .pendingFence
      · exact .inl ⟨same.1, same.2, by simp [same.1, same.2], by simp [same.1, same.2]⟩
      · refine .inr ⟨same, ?_, ?_⟩
        · simpa using same
        · simp only [ite_eq_right_iff, Bool.and_eq_true, beq_iff_eq, decide_eq_true_eq]
          exact fun both => absurd both same

theorem confirm_eq_ok (ok : leaseDecideConfirmFence current owner epoch now = .ok lease) :
    current.activeOwnerId = some owner ∧ current.assignmentEpoch = epoch ∧
      current.isLive now = true ∧ (current.state = .pendingFence ∨ current.state = .assigned) ∧
      lease = { current with state := .assigned } := by
  obtain ⟨passed, ok⟩ := check_bind_eq_ok.mp ok
  cases ok
  rw [rejectIf_eq_ok] at passed
  simp only [Bool.or_eq_false_iff, bne_eq_false_iff_eq, Bool.not_eq_false', Bool.or_eq_true,
    decide_eq_true_eq] at passed
  obtain ⟨⟨⟨named, same⟩, live⟩, state⟩ := passed
  exact ⟨named, same, live, state, rfl⟩

theorem renew_eq_ok (ok : leaseDecideRenew current owner epoch now ttl = .ok lease) :
    current.activeOwnerId = some owner ∧ current.assignmentEpoch = epoch ∧
      (current.state = .assigned ∨ current.state = .draining) ∧ current.isLive now = true ∧
      ∃ expiry, lease = { current with leaseExpiresAt := some expiry } ∧
        ∀ old, current.leaseExpiresAt = some old → old ≤ expiry := by
  obtain ⟨passed, ok⟩ := check_bind_eq_ok.mp ok
  cases ok
  rw [rejectIf_eq_ok] at passed
  simp only [Bool.or_eq_false_iff, bne_eq_false_iff_eq, Bool.not_eq_false', Bool.or_eq_true,
    decide_eq_true_eq] at passed
  obtain ⟨⟨⟨named, same⟩, serving⟩, live⟩ := passed
  refine ⟨named, same, serving, live, _, rfl, fun old known => ?_⟩
  rw [known, Option.elim_some]
  exact le_max_left old _

theorem beginDrain_eq_ok {target : OwnerId}
    (ok : leaseDecideBeginDrain current epoch target now = .ok lease) :
    current.assignmentEpoch = epoch ∧ current.isLive now = true ∧ current.state = .assigned ∧
      lease = { current with state := .draining, targetOwnerId := some target } := by
  obtain ⟨fresh, ok⟩ := check_bind_eq_ok.mp ok
  obtain ⟨serving, ok⟩ := check_bind_eq_ok.mp ok
  obtain ⟨-, ok⟩ := check_bind_eq_ok.mp ok
  cases ok
  rw [rejectIf_eq_ok] at fresh serving
  simp only [Bool.or_eq_false_iff, bne_eq_false_iff_eq, Bool.not_eq_false'] at fresh
  simp only [ne_eq, decide_not, Bool.not_eq_false', decide_eq_true_eq] at serving
  exact ⟨fresh.1, fresh.2, serving, rfl⟩

theorem release_eq_ok (ok : leaseDecideRelease current owner epoch = .ok lease) :
    current.activeOwnerId = some owner ∧ current.assignmentEpoch = epoch ∧
      lease = ⟨.unassigned, none, none, current.assignmentEpoch, none⟩ := by
  obtain ⟨passed, ok⟩ := check_bind_eq_ok.mp ok
  cases ok
  rw [rejectIf_eq_ok] at passed
  simp only [Bool.or_eq_false_iff, bne_eq_false_iff_eq] at passed
  exact ⟨passed.1.1, passed.1.2, rfl⟩

end Record

/-- A record after some calls, against the record before: a greater epoch, or the same epoch with
at most the owner it had. -/
structure Follows (before after : QueueLease) : Prop where
  epoch : before.assignmentEpoch ≤ after.assignmentEpoch
  owner : after.assignmentEpoch = before.assignmentEpoch →
    ∀ o, after.activeOwnerId = some o → before.activeOwnerId = some o

namespace Follows

theorem refl (lease : QueueLease) : Follows lease lease :=
    ⟨UInt64.le_refl _, fun _ _ named => named⟩

theorem trans {a b c : QueueLease} (first : Follows a b) (second : Follows b c) : Follows a c := by
  refine ⟨UInt64.le_trans first.epoch second.epoch, fun same o named => ?_⟩
  have middle : b.assignmentEpoch = a.assignmentEpoch := by
    have lower := first.epoch
    have upper := second.epoch
    rw [same] at upper
    exact UInt64.le_antisymm upper lower
  exact first.owner middle o (second.owner (same.trans middle.symm) o named)

end Follows

variable {epoch : UInt64} {queue : QueueKey}

/-- The epoch does not move on from its last value. -/
def Unwrapped (before after : QueueLease) : Prop :=
  before.assignmentEpoch = 0xffffffffffffffff → after.assignmentEpoch = 0xffffffffffffffff

instance (before after : QueueLease) : Decidable (Unwrapped before after) :=
  inferInstanceAs (Decidable (_ → _))

theorem Unwrapped.lt {before after : QueueLease} (room : Unwrapped before after)
    (next : after.assignmentEpoch = before.assignmentEpoch + 1) :
    before.assignmentEpoch < after.assignmentEpoch := by
  have bound := before.assignmentEpoch.toNat_lt
  have notLast : before.assignmentEpoch ≠ 0xffffffffffffffff := by
    intro last
    rw [room last, last] at next
    cases next
  rw [ne_eq, ← UInt64.toNat_inj] at notLast
  simp only [UInt64.reduceToNat] at notLast
  rw [next, UInt64.lt_iff_toNat_lt, UInt64.toNat_add]
  simp only [UInt64.toNat_one, Nat.reducePow]
  omega

/-- A record names an owner exactly when it is assigned. -/
def Named (lease : QueueLease) : Prop := lease.activeOwnerId = none ↔ lease.state = .unassigned

/-- What a call other than an acquisition does to a record it changes: the epoch stays, and the
owner stays or leaves. -/
structure Kept (before after : QueueLease) : Prop where
  epoch : after.assignmentEpoch = before.assignmentEpoch
  owner : ∀ o, after.activeOwnerId = some o → before.activeOwnerId = some o
  named : Named before → Named after

namespace Kept

theorem refl (lease : QueueLease) : Kept lease lease := ⟨rfl, fun _ named => named, id⟩

theorem trans {a b c : QueueLease} (first : Kept a b) (second : Kept b c) : Kept a c :=
  ⟨second.epoch.trans first.epoch, fun o named => first.owner o (second.owner o named),
    second.named ∘ first.named⟩

theorem follows {before after : QueueLease} (kept : Kept before after) : Follows before after :=
  ⟨kept.epoch ▸ UInt64.le_refl _, fun _ => kept.owner⟩

end Kept

section Decisions

variable {current lease : QueueLease} {owner : OwnerId} {epoch ttl : UInt64} {now : UtcTimestamp}

theorem kept_of_confirm (ok : leaseDecideConfirmFence current owner epoch now = .ok lease) :
    Kept current lease := by
  obtain ⟨named, -, -, -, rfl⟩ := confirm_eq_ok ok
  exact ⟨rfl, fun _ same => same, fun _ => by simp [Named, named]⟩

theorem kept_of_renew (ok : leaseDecideRenew current owner epoch now ttl = .ok lease) :
    Kept current lease := by
  obtain ⟨-, -, -, -, expiry, rfl, -⟩ := renew_eq_ok ok
  exact ⟨rfl, fun _ same => same, id⟩

theorem kept_of_beginDrain {target : OwnerId}
    (ok : leaseDecideBeginDrain current epoch target now = .ok lease) : Kept current lease := by
  obtain ⟨-, -, serving, rfl⟩ := beginDrain_eq_ok ok
  refine ⟨rfl, fun _ same => same, fun holds => ?_⟩
  simp only [Named, serving, reduceCtorEq, iff_false] at holds ⊢
  exact holds

theorem kept_of_release (ok : leaseDecideRelease current owner epoch = .ok lease) :
    Kept current lease := by
  obtain ⟨-, -, rfl⟩ := release_eq_ok ok
  refine ⟨rfl, fun _ named => ?_, fun _ => by simp [Named]⟩
  cases named

end Decisions

/-! ## One call -/

variable {lease : QueueLease} {owner : OwnerId} {now : UtcTimestamp}

section Call

variable {config : ControlPlaneConfig} {state : CpState} {r : QueueLease → QueueLease → Prop}

theorem lease_set (refl : ∀ lease, r lease lease) (queue other : QueueKey)
    (stored : r (state.lease queue) lease) :
    r (state.lease other) ((state.setLease queue lease).lease other) := by
  rw [lease_setLease]
  by_cases same : queue = other
  · subst same
    rw [if_pos rfl]
    exact stored
  · rw [if_neg same]
    exact refl _

/-- A decision relates the records of every queue as it relates the record it decides on. -/
theorem lease_decide (refl : ∀ lease, r lease lease)
    {decision : QueueLease → EngineResult QueueLease} (queue other : QueueKey)
    (kept : ∀ current lease, decision current = .ok lease → r current lease) :
    r (state.lease other) ((decide_ state queue decision).2.lease other) := by
  rw [decide_]
  cases decided : decision (state.lease queue) with
  | error e => exact refl _
  | ok lease => exact lease_set refl queue other (kept _ _ decided)

theorem lease_of_get (found : state.leases[queue]? = some lease) : state.lease queue = lease := by
  rw [CpState.lease, found]
  rfl

theorem lease_renewOne (refl : ∀ lease, r lease lease)
    (kept : ∀ {current lease owner epoch now ttl},
      leaseDecideRenew current owner epoch now ttl = .ok lease → r current lease)
    (now : UtcTimestamp) (renewal : LeaseRenewal) (other : QueueKey) :
    r (state.lease other) ((renewOne config state now renewal).2.lease other) := by
  rw [renewOne]
  split
  · exact refl _
  · next current found =>
    split
    · next renewed ok =>
      refine lease_set refl renewal.queue other ?_
      rw [lease_of_get found]
      exact kept ok
    · exact refl _
    · exact refl _

theorem lease_renewQueueLeases (refl : ∀ lease, r lease lease)
    (trans : ∀ {a b c}, r a b → r b c → r a c)
    (kept : ∀ {current lease owner epoch now ttl},
      leaseDecideRenew current owner epoch now ttl = .ok lease → r current lease)
    (now : UtcTimestamp) (renewals : List LeaseRenewal) (state : CpState) (other : QueueKey) :
    r (state.lease other) ((renewQueueLeases config now renewals state).2.lease other) := by
  induction renewals generalizing state with
  | nil => exact refl _
  | cons renewal rest ih => exact trans (lease_renewOne refl kept now renewal other) (ih _)

/-- A call acquires the queue, or keeps its record and grants nothing on it. -/
theorem execute_cases (call : Call) (other : QueueKey) :
    (Kept (state.lease other) ((execute config state call).2.lease other) ∧
      ∀ owner now lease, (call, (execute config state call).1) ≠
        (Call.acquire other owner now, Reply.acquire (.ok (.acquired lease)))) ∨
    ∃ owner now lease, call = .acquire other owner now ∧
      leaseDecideAcquire (state.lease other) owner now config.leaseTtlMs = .acquired lease ∧
      (execute config state call).1 = .acquire (.ok (.acquired lease)) ∧
      (execute config state call).2 = state.setLease other lease := by
  cases call with
  | register owner now => exact .inl ⟨.refl _, by simp⟩
  | advertise owner endpoint now => exact .inl ⟨.refl _, by simp⟩
  | heartbeat owner now => exact .inl ⟨.refl _, by simp⟩
  | acquire queue owner now =>
    rw [execute, acquireQueueLease]
    split
    · exact .inl ⟨.refl _, by simp⟩
    · cases decided : leaseDecideAcquire (state.lease queue) owner now config.leaseTtlMs with
      | rejected held => exact .inl ⟨.refl _, by simp⟩
      | acquired lease =>
        by_cases same : queue = other
        · subst same
          exact .inr ⟨owner, now, lease, rfl, decided, rfl, rfl⟩
        · refine .inl ⟨?_, by simp [same]⟩
          change Kept _ ((state.setLease queue lease).lease other)
          rw [lease_setLease, if_neg same]
          exact .refl _
  | confirm queue owner epoch now =>
    exact .inl ⟨lease_decide Kept.refl queue other fun _ _ => kept_of_confirm, by simp⟩
  | renew queue owner epoch now =>
    exact .inl ⟨lease_decide Kept.refl queue other fun _ _ => kept_of_renew, by simp⟩
  | renewBatch renewals now =>
    exact .inl ⟨lease_renewQueueLeases Kept.refl .trans kept_of_renew now renewals state other,
      by simp⟩
  | beginDrain queue epoch target now =>
    exact .inl ⟨lease_decide Kept.refl queue other fun _ _ => kept_of_beginDrain, by simp⟩
  | release queue owner epoch now =>
    exact .inl ⟨lease_decide Kept.refl queue other fun _ _ => kept_of_release, by simp⟩

end Call

/-! ## Runs -/

abbrev Event := Call × Reply

def Step (config : ControlPlaneConfig) (before : CpState) (event : Event) (after : CpState) :
    Prop :=
  execute config before event.1 = (event.2, after)

/-- A step that moves no queue on from the last epoch. -/
def RoomyStep (config : ControlPlaneConfig) (before : CpState) (event : Event) (after : CpState) :
    Prop :=
  Step config before event after ∧ ∀ queue, Unwrapped (before.lease queue) (after.lease queue)

/-- An acquisition of the queue at the epoch succeeded. -/
def Granted (history : List Event) (queue : QueueKey) (owner : OwnerId) (epoch : UInt64) : Prop :=
  ∃ now lease, (Call.acquire queue owner now, Reply.acquire (.ok (.acquired lease))) ∈ history ∧
    lease.assignmentEpoch = epoch

/-- The grants of a queue so far, against its record. -/
structure Grants (history : List Event) (queue : QueueKey) (lease : QueueLease) : Prop where
  named : Named lease
  holder : ∀ o, lease.activeOwnerId = some o →
    0 < lease.assignmentEpoch ∧ Granted history queue o lease.assignmentEpoch
  every : ∀ e, 0 < e → e ≤ lease.assignmentEpoch → ∃ o, Granted history queue o e
  past : ∀ o e, Granted history queue o e → e ≤ lease.assignmentEpoch
  one : ∀ o o' e, Granted history queue o e → Granted history queue o' e → o = o'

section Grants

variable {history : List Event} {queue : QueueKey} {event : Event} {before after : QueueLease}

theorem Granted.mono (granted : Granted history queue owner epoch) (event : Event) :
    Granted (history ++ [event]) queue owner epoch := by
  obtain ⟨now, lease, member, same⟩ := granted
  exact ⟨now, lease, List.mem_append_left _ member, same⟩

/-- A grant of a longer history is a grant of the history or of its last event. -/
theorem granted_snoc (granted : Granted (history ++ [event]) queue owner epoch) :
    Granted history queue owner epoch ∨ ∃ now lease,
      event = (Call.acquire queue owner now, Reply.acquire (.ok (.acquired lease))) ∧
        lease.assignmentEpoch = epoch := by
  obtain ⟨now, lease, member, same⟩ := granted
  rcases List.mem_append.mp member with earlier | last
  · exact .inl ⟨now, lease, earlier, same⟩
  · exact .inr ⟨now, lease, (List.mem_singleton.mp last).symm, same⟩

/-- An event that grants nothing on the queue keeps the account of its grants. -/
theorem Grants.keep (grants : Grants history queue before) (kept : Kept before after)
    (bare : ∀ owner now lease,
      event ≠ (Call.acquire queue owner now, Reply.acquire (.ok (.acquired lease)))) :
    Grants (history ++ [event]) queue after := by
  have earlier : ∀ o e, Granted (history ++ [event]) queue o e → Granted history queue o e := by
    intro o e granted
    rcases granted_snoc granted with earlier | ⟨now, lease, same, -⟩
    · exact earlier
    · exact absurd same (bare o now lease)
  refine ⟨kept.named grants.named, ?_, ?_, ?_, ?_⟩
  · intro o named
    obtain ⟨positive, granted⟩ := grants.holder o (kept.owner o named)
    rw [kept.epoch]
    exact ⟨positive, granted.mono event⟩
  · intro e positive within
    rw [kept.epoch] at within
    obtain ⟨o, granted⟩ := grants.every e positive within
    exact ⟨o, granted.mono event⟩
  · intro o e granted
    rw [kept.epoch]
    exact grants.past o e (earlier o e granted)
  · exact fun o o' e first second => grants.one o o' e (earlier o e first) (earlier o' e second)

/-- An acquisition with room for the next epoch keeps the account of grants. -/
theorem Grants.acquire (grants : Grants history queue before) {ttl : UInt64}
    (acquired : leaseDecideAcquire before owner now ttl = .acquired after)
    (room : Unwrapped before after) :
    Grants (history ++ [(Call.acquire queue owner now, Reply.acquire (.ok (.acquired after)))])
      queue after := by
  obtain ⟨-, named, -, form⟩ := acquire_cases acquired
  have here : Granted (history ++ [(Call.acquire queue owner now,
      Reply.acquire (.ok (.acquired after)))]) queue owner after.assignmentEpoch :=
    ⟨now, after, by simp, rfl⟩
  -- A grant is an earlier grant, or this one.
  have snoc : ∀ o e, Granted (history ++ [(Call.acquire queue owner now,
      Reply.acquire (.ok (.acquired after)))]) queue o e →
      Granted history queue o e ∨ o = owner ∧ e = after.assignmentEpoch := by
    intro o e granted
    rcases granted_snoc granted with earlier | ⟨_, _, same, epoch⟩
    · exact .inl earlier
    · cases same
      exact .inr ⟨rfl, epoch.symm⟩
  rcases form with ⟨held, -, state, epoch⟩ | ⟨-, state, epoch⟩
  · obtain ⟨positive, granted⟩ := grants.holder owner held
    have again : ∀ o e, Granted (history ++ [(Call.acquire queue owner now,
        Reply.acquire (.ok (.acquired after)))]) queue o e → Granted history queue o e := by
      intro o e later
      rcases snoc o e later with earlier | ⟨rfl, rfl⟩
      · exact earlier
      · rw [epoch]
        exact granted
    refine ⟨by simp [Named, named, state], ?_, ?_, ?_, ?_⟩
    · intro o same
      cases named.symm.trans same
      exact ⟨epoch ▸ positive, here⟩
    · intro e positive within
      rw [epoch] at within
      obtain ⟨o, granted⟩ := grants.every e positive within
      exact ⟨o, granted.mono _⟩
    · intro o e later
      rw [epoch]
      exact grants.past o e (again o e later)
    · exact fun o o' e first second => grants.one o o' e (again o e first) (again o' e second)
  · have greater := room.lt epoch
    have fresh : ∀ o, ¬Granted history queue o after.assignmentEpoch := fun o granted =>
      absurd (grants.past o _ granted) (UInt64.not_le.mpr greater)
    refine ⟨by simp [Named, named, state], ?_, ?_, ?_, ?_⟩
    · intro o same
      cases named.symm.trans same
      exact ⟨UInt64.lt_of_le_of_lt (UInt64.zero_le) greater, here⟩
    · intro e positive within
      by_cases last : e = after.assignmentEpoch
      · exact ⟨owner, last ▸ here⟩
      · have below : e ≤ before.assignmentEpoch := by
          rw [epoch] at within last
          have bound := before.assignmentEpoch.toNat_lt
          have apart : e.toNat ≠ (before.assignmentEpoch + 1).toNat := fun same =>
            last (UInt64.toNat_inj.mp same)
          rw [UInt64.le_iff_toNat_le] at within ⊢
          rw [UInt64.toNat_add] at within apart
          simp only [UInt64.toNat_one, Nat.reducePow] at within apart
          omega
        obtain ⟨o, granted⟩ := grants.every e positive below
        exact ⟨o, granted.mono _⟩
    · intro o e later
      rcases snoc o e later with earlier | ⟨-, rfl⟩
      · exact UInt64.le_trans (grants.past o e earlier) (UInt64.le_of_lt greater)
      · exact UInt64.le_refl _
    · intro o o' e first second
      rcases snoc o e first with earlier | ⟨rfl, rfl⟩
      · rcases snoc o' e second with earlier' | ⟨rfl, rfl⟩
        · exact grants.one o o' e earlier earlier'
        · exact absurd earlier (fresh o)
      · rcases snoc o' _ second with earlier' | ⟨rfl, -⟩
        · exact absurd earlier' (fresh o')
        · rfl

end Grants

section Runs

variable {config : ControlPlaneConfig}

theorem genesis_grants (queue : QueueKey) : Grants [] queue (CpState.default.lease queue) := by
  have genesis : CpState.default.lease queue = .unassigned := by
    simp [CpState.lease, CpState.default]
  have none : ∀ o e, ¬Granted [] queue o e := by
    rintro o e ⟨_, _, member, -⟩
    cases member
  rw [genesis]
  constructor
  · simp [Named, QueueLease.unassigned]
  · intro o named
    cases named
  · intro e positive within
    exact absurd positive (UInt64.not_lt.mpr within)
  · exact fun o e granted => absurd granted (none o e)
  · exact fun o _ e granted => absurd granted (none o e)

variable {history : List Event}

/-- The account of grants is exact along every run that never exhausts an epoch. -/
theorem run_grants {state : CpState} (run : Run (RoomyStep config) .default history state)
    (queue : QueueKey) : Grants history queue (state.lease queue) := by
  refine run.history_invariant (P := fun history state => Grants history queue (state.lease queue))
    (genesis_grants queue) ?_
  rintro past before ⟨call, reply⟩ after grants ⟨step, room⟩
  obtain rfl : (execute config before call).1 = reply := congrArg Prod.fst step
  obtain rfl : (execute config before call).2 = after := congrArg Prod.snd step
  rcases @execute_cases config before call queue with
    ⟨kept, bare⟩ | ⟨owner, now, lease, rfl, acquired, outcome, stored⟩
  · exact grants.keep kept bare
  · have room := room queue
    rw [stored, lease_setLease, if_pos rfl] at room ⊢
    rw [outcome]
    exact grants.acquire acquired room

theorem run_follows {before after : CpState} (run : Run (RoomyStep config) before history after)
    (queue : QueueKey) : Follows (before.lease queue) (after.lease queue) := by
  refine run.relates (P := fun _ => True) (r := fun s t => Follows (s.lease queue) (t.lease queue))
    trivial (fun _ _ _ _ _ => trivial) (fun _ => .refl _) (fun _ _ _ => .trans) ?_
  rintro s ⟨call, reply⟩ t - ⟨step, room⟩
  obtain rfl : (execute config s call).2 = t := congrArg Prod.snd step
  rcases @execute_cases config s call queue with
    ⟨kept, -⟩ | ⟨owner, now, lease, rfl, acquired, -, stored⟩
  · exact kept.follows
  · have room := room queue
    rw [stored, lease_setLease, if_pos rfl] at room ⊢
    obtain ⟨-, named, -, ⟨held, -, -, epoch⟩ | ⟨-, -, epoch⟩⟩ := acquire_cases acquired
    · refine ⟨epoch ▸ UInt64.le_refl _, fun _ o same => ?_⟩
      rw [← same, named, held]
    · have greater := room.lt epoch
      refine ⟨UInt64.le_of_lt greater, fun same => ?_⟩
      rw [same] at greater
      exact absurd greater (UInt64.lt_irrefl _)

end Runs

/-! ## Single calls from a reached state -/

def Call.time : Call → UtcTimestamp
  | .register _ now | .advertise _ _ now | .heartbeat _ now | .acquire _ _ now
  | .confirm _ _ _ now | .renew _ _ _ now | .renewBatch _ now | .beginDrain _ _ _ now
  | .release _ _ _ now => now

def Call.renews : Call → Bool
  | .renew .. | .renewBatch .. => true
  | _ => false

/-- What a single call may do to the records of a state. -/
structure CallLaws (config : ControlPlaneConfig) (state : CpState) : Prop where
  preserved : ∀ queue owner now lease,
    (execute config state (.acquire queue owner now)).1 = .acquire (.ok (.acquired lease)) →
    lease.assignmentEpoch = (state.lease queue).assignmentEpoch →
    (state.lease queue).activeOwnerId = some owner ∧
      ((state.lease queue).state = .assigned ∨ (state.lease queue).state = .draining)
  exclusive : ∀ (call : Call) (queue : QueueKey) (owner : OwnerId),
    (state.lease queue).isLive call.time = true →
    ((execute config state call).2.lease queue).activeOwnerId = some owner →
    (state.lease queue).activeOwnerId = some owner
  prolonged : ∀ (call : Call), call.renews = true → ∀ queue expiry,
    (state.lease queue).leaseExpiresAt = some expiry → ∃ later,
      ((execute config state call).2.lease queue).leaseExpiresAt = some later ∧ expiry ≤ later
  fenced : ∀ queue epoch, epoch < (state.lease queue).assignmentEpoch → ∀ owner now,
    execute config state (.renew queue owner epoch now) = (.lease (.error .epochFenced), state) ∧
    execute config state (.confirm queue owner epoch now) = (.lease (.error .epochFenced), state) ∧
    execute config state (.beginDrain queue epoch owner now) =
      (.lease (.error .epochFenced), state) ∧
    execute config state (.release queue owner epoch now) = (.lease (.error .epochFenced), state)
  fencedBatch : ∀ queue epoch, epoch < (state.lease queue).assignmentEpoch →
    ∀ owner now before after, InMemory.renewQueueLeases config now
        (before ++ ⟨queue, owner, epoch⟩ :: after) state =
      let first := InMemory.renewQueueLeases config now before state
      let second := InMemory.renewQueueLeases config now after first.2
      (first.1 ++ .fenced :: second.1, second.2)

section Laws

variable {config : ControlPlaneConfig} {state : CpState}

theorem acquire_preserves (named : Named (state.lease queue))
    (replied : (execute config state (.acquire queue owner now)).1 =
      .acquire (.ok (.acquired lease)))
    (same : lease.assignmentEpoch = (state.lease queue).assignmentEpoch) :
    (state.lease queue).activeOwnerId = some owner ∧
      ((state.lease queue).state = .assigned ∨ (state.lease queue).state = .draining) := by
  rcases @execute_cases config state (.acquire queue owner now) queue with
    ⟨-, bare⟩ | ⟨_, _, lease', call, acquired, outcome, -⟩
  · exact absurd (congrArg (Prod.mk _) replied) (bare owner now lease)
  · cases call
    cases outcome.symm.trans replied
    obtain ⟨-, -, -, ⟨held, confirmed, -, -⟩ | ⟨-, -, epoch⟩⟩ := acquire_cases acquired
    · refine ⟨held, ?_⟩
      rw [Named, held] at named
      cases state : (state.lease queue).state with
      | unassigned => exact absurd (named.mpr state) (by simp)
      | pendingFence => exact absurd state confirmed
      | assigned => exact .inl rfl
      | draining => exact .inr rfl
    · rw [epoch] at same
      have bound := (state.lease queue).assignmentEpoch.toNat_lt
      have numbers := congrArg UInt64.toNat same
      rw [UInt64.toNat_add] at numbers
      simp only [UInt64.toNat_one, Nat.reducePow] at numbers
      omega

theorem execute_exclusive {call : Call} (live : (state.lease queue).isLive call.time = true)
    (taken : ((execute config state call).2.lease queue).activeOwnerId = some owner) :
    (state.lease queue).activeOwnerId = some owner := by
  rcases @execute_cases config state call queue with
    ⟨kept, -⟩ | ⟨acquirer, now, lease, rfl, acquired, -, stored⟩
  · exact kept.owner owner taken
  · rw [stored, lease_setLease, if_pos rfl] at taken
    obtain ⟨free, named, -⟩ := acquire_cases acquired
    rw [← taken, named]
    exact (free live).1

/-- A record whose expiry is not before that of another. -/
def Prolongs (before after : QueueLease) : Prop :=
  ∀ expiry, before.leaseExpiresAt = some expiry →
    ∃ later, after.leaseExpiresAt = some later ∧ expiry ≤ later

theorem Prolongs.refl (lease : QueueLease) : Prolongs lease lease :=
  fun expiry known => ⟨expiry, known, le_rfl⟩

theorem Prolongs.trans {a b c : QueueLease} (first : Prolongs a b) (second : Prolongs b c) :
    Prolongs a c := by
  intro expiry known
  obtain ⟨middle, found, early⟩ := first expiry known
  obtain ⟨later, stored, late⟩ := second middle found
  exact ⟨later, stored, early.trans late⟩

theorem prolongs_of_renew {current : QueueLease} {ttl : UInt64}
    (ok : leaseDecideRenew current owner epoch now ttl = .ok lease) : Prolongs current lease := by
  obtain ⟨-, -, -, -, expiry, rfl, longer⟩ := renew_eq_ok ok
  exact fun old known => ⟨expiry, rfl, longer old known⟩

theorem execute_prolongs {call : Call} (renews : call.renews = true) (queue : QueueKey) :
    Prolongs (state.lease queue) ((execute config state call).2.lease queue) := by
  cases call with
  | renew other owner epoch now =>
    exact lease_decide Prolongs.refl other queue fun _ _ => prolongs_of_renew
  | renewBatch renewals now =>
    exact lease_renewQueueLeases Prolongs.refl .trans prolongs_of_renew now renewals state queue
  | _ => cases renews

/-- A decision that finds another epoch is fenced and changes nothing. -/
theorem execute_fenced (stale : (state.lease queue).assignmentEpoch ≠ epoch) (owner : OwnerId)
    (now : UtcTimestamp) :
    execute config state (.renew queue owner epoch now) = (.lease (.error .epochFenced), state) ∧
    execute config state (.confirm queue owner epoch now) = (.lease (.error .epochFenced), state) ∧
    execute config state (.beginDrain queue epoch owner now) =
      (.lease (.error .epochFenced), state) ∧
    execute config state (.release queue owner epoch now) =
      (.lease (.error .epochFenced), state) := by
  have apart : ((state.lease queue).assignmentEpoch != epoch) = true := by simpa using stale
  refine ⟨?_, ?_, ?_, ?_⟩
  · simp [execute, renewQueueLease, decide_, leaseDecideRenew, apart, rejectIf]
  · simp [execute, confirmQueueLeaseFence, decide_, leaseDecideConfirmFence, apart, rejectIf]
  · simp [execute, beginDrain, decide_, leaseDecideBeginDrain, apart, rejectIf]
  · simp [execute, releaseQueueLease, decide_, leaseDecideRelease, apart, rejectIf]

theorem renewQueueLeases_append (now : UtcTimestamp) (before after : List LeaseRenewal)
    (state : CpState) :
    renewQueueLeases config now (before ++ after) state =
      let first := renewQueueLeases config now before state
      let second := renewQueueLeases config now after first.2
      (first.1 ++ second.1, second.2) := by
  induction before generalizing state with
  | nil => rfl
  | cons renewal rest ih =>
    simp only [List.cons_append, renewQueueLeases, ih]

theorem renewOne_fenced (now : UtcTimestamp) (older : epoch < (state.lease queue).assignmentEpoch) :
    renewOne config state now ⟨queue, owner, epoch⟩ = (.fenced, state) := by
  rw [renewOne]
  cases found : state.leases[queue]? with
  | none =>
    -- A missing record is at epoch zero, which is older than nothing.
    rw [lease, found] at older
    exact absurd older (UInt64.not_lt.mpr UInt64.zero_le)
  | some current =>
    rw [lease_of_get found] at older
    have apart : (current.assignmentEpoch != epoch) = true := by
      simpa using (UInt64.ne_of_lt older).symm
    simp [leaseDecideRenew, apart, rejectIf]

theorem callLaws (named : ∀ queue, Named (state.lease queue)) : CallLaws config state := by
  constructor
  · exact fun queue owner now lease => acquire_preserves (named queue)
  · exact fun call queue owner => execute_exclusive
  · exact fun call renews queue => execute_prolongs renews queue
  · exact fun queue epoch older owner now => execute_fenced (UInt64.ne_of_lt older).symm owner now
  · intro queue epoch older owner now before after
    have kept : Kept _ ((renewQueueLeases config now before state).2.lease queue) :=
      lease_renewQueueLeases Kept.refl .trans kept_of_renew now before state queue
    rw [renewQueueLeases_append]
    simp only [renewQueueLeases]
    rw [renewOne_fenced now (kept.epoch.symm ▸ older)]

end Laws

/-- Along every run from genesis that moves no queue on from the last epoch: the epoch of a queue
never decreases; an owner recorded at an epoch is the only one recorded at it, in one tenure; every
epoch up to the current one was granted to exactly one owner; and every reached state obeys the laws
of single calls. -/
theorem assignmentEpochs_unique {config : ControlPlaneConfig} {before between after : List Event}
    {s t u : CpState} (reached : Run (RoomyStep config) .default before s)
    (first : Run (RoomyStep config) s between t) (second : Run (RoomyStep config) t after u)
    (queue : QueueKey) :
    (s.lease queue).assignmentEpoch ≤ (t.lease queue).assignmentEpoch ∧
    (∀ o o', (s.lease queue).activeOwnerId = some o → (u.lease queue).activeOwnerId = some o' →
      (u.lease queue).assignmentEpoch = (s.lease queue).assignmentEpoch →
        o' = o ∧ (t.lease queue).activeOwnerId = some o ∧
          (t.lease queue).assignmentEpoch = (s.lease queue).assignmentEpoch) ∧
    (∀ e, 0 < e → e ≤ (s.lease queue).assignmentEpoch → ∃! o, Granted before queue o e) ∧
    (∀ o, (s.lease queue).activeOwnerId = some o →
      Granted before queue o (s.lease queue).assignmentEpoch) ∧
    CallLaws config s := by
  have follows := run_follows first queue
  have later := run_follows second queue
  have grants := fun queue => run_grants reached queue
  refine ⟨follows.epoch, ?_, ?_, fun o named => ((grants queue).holder o named).2,
    callLaws fun queue => (grants queue).named⟩
  · intro o o' held named same
    have middle : (t.lease queue).assignmentEpoch = (s.lease queue).assignmentEpoch :=
      UInt64.le_antisymm (same ▸ later.epoch) follows.epoch
    have between := later.owner (same.trans middle.symm) o' named
    have original := follows.owner middle o' between
    cases held.symm.trans original
    exact ⟨rfl, between, middle⟩
  · intro e positive within
    obtain ⟨o, granted⟩ := (grants queue).every e positive within
    exact ⟨o, granted, fun o' other => (grants queue).one o' o e other granted⟩

/-! ## Concrete runs -/

/-- Make calls in order. -/
def perform (config : ControlPlaneConfig) : CpState → List Call → List Event × CpState
  | state, [] => ([], state)
  | state, call :: calls =>
    let rest := perform config (execute config state call).2 calls
    ((call, (execute config state call).1) :: rest.1, rest.2)

def Call.hasRoom (config : ControlPlaneConfig) (state : CpState) : Call → Bool
  | .acquire queue owner now => decide (Unwrapped (state.lease queue)
      ((execute config state (.acquire queue owner now)).2.lease queue))
  | _ => true

/-- No call of the list moves its queue on from the last epoch. -/
def roomy (config : ControlPlaneConfig) : CpState → List Call → Bool
  | _, [] => true
  | state, call :: calls =>
    call.hasRoom config state && roomy config (execute config state call).2 calls

theorem perform_run {config : ControlPlaneConfig} (calls : List Call) (state : CpState)
    (room : roomy config state calls = true) :
    Run (RoomyStep config) state (perform config state calls).1 (perform config state calls).2 := by
  induction calls generalizing state with
  | nil => exact .nil state
  | cons call calls ih =>
    rw [roomy, Bool.and_eq_true] at room
    refine .cons ⟨rfl, fun queue => ?_⟩ (ih _ room.2)
    rcases @execute_cases config state call queue with ⟨kept, -⟩ | ⟨owner, now, lease, rfl, -⟩
    · exact fun last => kept.epoch.trans last
    · exact of_decide_eq_true room.1

def sampleKey : QueueKey := ("tenant", "queue")

def sampleTime : UtcTimestamp := ⟨0, 0, UtcTimestamp.whole_normal⟩

/-- The first owner acquires. -/
def sampleAcquired : List Event × CpState :=
  perform .default .default [.register "a" sampleTime, .acquire sampleKey "a" sampleTime]

/-- It releases. -/
def sampleReleased : List Event × CpState :=
  perform .default sampleAcquired.2 [.release sampleKey "a" 1 sampleTime]

/-- The second owner acquires. -/
def sampleTaken : List Event × CpState :=
  perform .default sampleReleased.2 [.register "b" sampleTime, .acquire sampleKey "b" sampleTime]

theorem assignmentEpochs_unique_handover :
    (sampleReleased.2.lease sampleKey).assignmentEpoch ≤
        (sampleTaken.2.lease sampleKey).assignmentEpoch ∧
      CallLaws .default sampleReleased.2 := by
  obtain ⟨mono, -, -, -, laws⟩ := assignmentEpochs_unique
    ((perform_run [.register "a" sampleTime, .acquire sampleKey "a" sampleTime] _
      (by decide +kernel)).append
      (perform_run [.release sampleKey "a" 1 sampleTime] sampleAcquired.2 (by decide +kernel)))
    (perform_run [.register "b" sampleTime, .acquire sampleKey "b" sampleTime] sampleReleased.2
      (by decide +kernel)) (.nil sampleTaken.2) sampleKey
  exact ⟨mono, laws⟩

def sampleGrant (epoch : UInt64) : QueueLease :=
  ⟨.pendingFence, some "a", some "a", epoch,
    some (sampleTime.addMillis ControlPlaneConfig.default.leaseTtlMs)⟩

/-- A live owner acquires a released queue at the next epoch. -/
theorem acquire_free {state : CpState} (live : state.owners["a"]? = some sampleTime)
    (free : state.lease sampleKey = ⟨.unassigned, none, none, epoch, none⟩) :
    Step .default state
      (.acquire sampleKey "a" sampleTime, .acquire (.ok (.acquired (sampleGrant (epoch + 1)))))
      (state.setLease sampleKey (sampleGrant (epoch + 1))) := by
  have alive : isOwnerLive .default state "a" sampleTime = true := by
    rw [isOwnerLive, live]
    decide +kernel
  have decided : leaseDecideAcquire (state.lease sampleKey) "a" sampleTime
      ControlPlaneConfig.default.leaseTtlMs = .acquired (sampleGrant (epoch + 1)) := by
    rw [free]
    rfl
  simp only [Step, execute, acquireQueueLease, alive, decided, Bool.not_true,
    Bool.false_eq_true, if_false]
  rfl

theorem release_granted (state : CpState) (epoch : UInt64) :
    Step .default (state.setLease sampleKey (sampleGrant epoch))
      (.release sampleKey "a" epoch sampleTime,
        .lease (.ok ⟨.unassigned, none, none, epoch, none⟩))
      ((state.setLease sampleKey (sampleGrant epoch)).setLease sampleKey
        ⟨.unassigned, none, none, epoch, none⟩) := by
  have released : leaseDecideRelease (sampleGrant epoch) "a" epoch =
      .ok ⟨.unassigned, none, none, epoch, none⟩ := by
    simp [leaseDecideRelease, sampleGrant, rejectIf]
  simp only [Step, execute, releaseQueueLease, decide_, lease_setLease, if_true, released]
  rfl

/-- Acquisitions and releases by one owner reach every epoch. -/
theorem epoch_reached (n : Nat) : ∃ history state, Run (Step .default) .default history state ∧
    state.owners["a"]? = some sampleTime ∧
    state.lease sampleKey = ⟨.unassigned, none, none, UInt64.ofNat n, none⟩ := by
  induction n with
  | zero =>
    exact ⟨[(.register "a" sampleTime, .done)], _, .single rfl, by
      decide +kernel, by decide +kernel⟩
  | succ n ih =>
    obtain ⟨history, state, run, registered, free⟩ := ih
    refine ⟨_, _, run.append (.cons (acquire_free registered free)
      (.single (release_granted state _))), registered, ?_⟩
    rw [lease_setLease, if_pos rfl, UInt64.ofNat_add]
    rfl

/-- After the last epoch the counter starts again: an acquisition of the released queue grants
epoch zero. -/
theorem epoch_wraps : ∃ history event state next,
    Run (Step .default) .default history state ∧ Step .default state event next ∧
    (next.lease sampleKey).assignmentEpoch < (state.lease sampleKey).assignmentEpoch := by
  obtain ⟨history, state, run, registered, free⟩ := epoch_reached 18446744073709551615
  refine ⟨history, _, state, _, run, acquire_free registered free, ?_⟩
  rw [CpState.lease_setLease, if_pos rfl, free]
  decide

end ControlPlane
