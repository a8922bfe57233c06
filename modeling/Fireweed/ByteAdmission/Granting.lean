import Fireweed.ByteAdmission

/-!
# What the grant loop can do

One round of the loop chooses the first waiter that fits and has no older
ungranted waiter of its tenant, unless an aged waiter reserves the capacity. The
loop ends only when no round is left to make.
-/

namespace ByteAdmission

open BTree Checked List Std

/-! ## Checked arithmetic -/

theorem checkedAdd_eq_some {a b c : UInt64} :
    checkedAdd a b = some c ↔
      a.toNat + b.toNat < 2 ^ 64 ∧ c.toNat = a.toNat + b.toNat := by
  rw [checkedAdd]
  constructor
  · intro added
    split at added
    · next fits =>
      cases added
      refine ⟨fits, ?_⟩
      rw [UInt64.toNat_add, Nat.mod_eq_of_lt fits]
    · cases added
  · rintro ⟨fits, sum⟩
    rw [if_pos fits, Option.some.injEq, ← UInt64.toNat_inj, UInt64.toNat_add,
      Nat.mod_eq_of_lt fits, sum]

theorem checkedSub_eq_some {a b c : UInt64} :
    checkedSub a b = some c ↔ c.toNat + b.toNat = a.toNat := by
  rw [checkedSub]
  constructor
  · intro subtracted
    split at subtracted
    · next below =>
      cases subtracted
      rw [UInt64.toNat_sub_of_le _ _ below]
      have := UInt64.le_iff_toNat_le.mp below
      omega
    · cases subtracted
  · intro sum
    have below : b ≤ a := by
      rw [UInt64.le_iff_toNat_le]
      omega
    rw [if_pos below, Option.some.injEq, ← UInt64.toNat_inj, UInt64.toNat_sub_of_le _ _ below]
    omega

theorem expectSome_eq_ok {α : Type} {value : Option α} {message : String} {a : α} :
    expectSome value message = .ok a ↔ value = some a := by
  cases value <;> simp [expectSome]

theorem toNat_saturatingSucc (n : UInt8) : (saturatingSucc n).toNat = min (n.toNat + 1) 255 := by
  rw [saturatingSucc]
  split
  · next full =>
    rw [full]
    rfl
  · next room =>
    have below := n.toNat_lt
    have notFull : n.toNat ≠ 255 := fun full => room (UInt8.toNat_inj.mp full)
    rw [UInt8.toNat_add]
    change (n.toNat + 1) % 2 ^ 8 = _
    omega

/-! ## One round -/

variable {grant : Grant} {waiters : List Waiter} {waiter : Waiter}

section Round

variable {config : BufferedByteBudgetConfig} {state : BudgetState}

variable {older : List Waiter}

theorem grantable_eq_true :
    grantable config state older waiter = true ↔
      waiter.granted = false ∧ fits config state waiter.tenant waiter.bytes = true ∧
        ∀ o ∈ older, o.granted = false → o.tenant ≠ waiter.tenant := by
  simp [grantable, and_assoc]

theorem firstGrantable_eq_some {o y : List Waiter} {w : Waiter}
    (found : firstGrantable config state older waiters = some (o, w, y)) :
    ∃ skipped, o = older ++ skipped ∧ waiters = skipped ++ w :: y ∧
      grantable config state o w = true ∧
      ∀ a u b, skipped = a ++ u :: b → grantable config state (older ++ a) u = false := by
  induction waiters generalizing older with
  | nil => cases found
  | cons waiter younger ih =>
    rw [firstGrantable] at found
    split at found
    · next here =>
      cases found
      exact ⟨[], by simp, rfl, here, by simp⟩
    · next skip =>
      obtain ⟨skipped, rfl, rfl, chosen, passed⟩ := ih found
      refine ⟨waiter :: skipped, by simp, rfl, chosen, ?_⟩
      intro a u b split_
      cases a with
      | nil =>
        cases split_
        simpa using skip
      | cons first a =>
        cases split_
        simpa using passed a u b rfl

theorem firstGrantable_eq_none (missing : firstGrantable config state older waiters = none) :
    ∀ a u b, waiters = a ++ u :: b → grantable config state (older ++ a) u = false := by
  induction waiters generalizing older with
  | nil => simp
  | cons waiter younger ih =>
    rw [firstGrantable] at missing
    split at missing
    · cases missing
    · next skip =>
      intro a u b split_
      cases a with
      | nil =>
        cases split_
        simpa using skip
      | cons first a =>
        cases split_
        simpa using ih missing a u b rfl

structure Chosen (config : BufferedByteBudgetConfig) (grant : Grant) : Prop where
  queue : grant.before.waiters = grant.older ++ grant.waiter :: grant.younger
  unreserved : agedGlobal config grant.before = false
  waiting : grant.waiter.granted = false
  fits : fits config grant.before grant.waiter.tenant grant.waiter.bytes = true
  oldest : ∀ o ∈ grant.older, o.granted = false → o.tenant ≠ grant.waiter.tenant
  first : ∀ a u b, grant.older = a ++ u :: b → grantable config grant.before a u = false

theorem nextGrant_eq_some (chosen : nextGrant config state = some grant) :
    grant.before = state ∧ Chosen config grant := by
  rw [nextGrant] at chosen
  split at chosen
  · cases chosen
  · next unreserved =>
    obtain ⟨⟨o, w, y⟩, found, rfl⟩ := Option.map_eq_some_iff.mp chosen
    obtain ⟨skipped, rfl, queue, able, passed⟩ := firstGrantable_eq_some found
    obtain ⟨waiting, fits, oldest⟩ := grantable_eq_true.mp able
    refine ⟨rfl, ?_, ?_, waiting, fits, oldest, ?_⟩
    · simpa using queue
    · simpa using unreserved
    · simpa using passed

/-- Nothing is left to grant: an aged waiter reserves the capacity, or no waiter is grantable. -/
def Settled (config : BufferedByteBudgetConfig) (state : BudgetState) : Prop :=
  agedGlobal config state = true ∨
    ∀ a u b, state.waiters = a ++ u :: b → grantable config state a u = false

theorem nextGrant_eq_none (done : nextGrant config state = none) : Settled config state := by
  rw [nextGrant] at done
  split at done
  · next reserved => exact .inl reserved
  · right
    simpa using firstGrantable_eq_none (Option.map_eq_none_iff.mp done)

def Grant.queue (grant : Grant) : List Waiter :=
  grant.older.map Waiter.bypass ++ grant.waiter.grant :: grant.younger

section

variable {state after : BudgetState} {tenant : TenantId} {bytes : UInt64}
  (charged : charge state tenant bytes = .ok after)

include charged

theorem charge_eq_ok :
    ∃ sum tenantSum, checkedAdd state.charged bytes = some sum ∧
      checkedAdd ((state.tenantCharged[tenant]?).getD 0) bytes = some tenantSum ∧
      after = { state with
        charged := sum
        peak := max state.peak sum
        tenantCharged := state.tenantCharged.insert tenant tenantSum } := by
  obtain ⟨sum, first, rest⟩ := bind_eq_ok.mp charged
  obtain ⟨tenantSum, second, rest⟩ := bind_eq_ok.mp rest
  cases rest
  exact ⟨sum, tenantSum, expectSome_eq_ok.mp first, expectSome_eq_ok.mp second, rfl⟩

theorem charge_queue :
    after.waiters = state.waiters ∧ after.closed = state.closed ∧
      after.nextWaiterId = state.nextWaiterId := by
  obtain ⟨sum, tenantSum, -, -, rfl⟩ := charge_eq_ok charged
  exact ⟨rfl, rfl, rfl⟩

end

theorem apply_queue {after : BudgetState} (applied : grant.apply = .ok after) :
    after.waiters = grant.queue ∧ after.closed = grant.before.closed ∧
      after.nextWaiterId = grant.before.nextWaiterId :=
  charge_queue applied

end Round

/-! ## The loop -/

def ungranted (waiters : List Waiter) : Nat := waiters.countP (!·.granted)

open Waiter

theorem granted_bypass (waiter : Waiter) : waiter.bypass.granted = waiter.granted := by
  rw [bypass]
  split <;> rfl

variable {config : BufferedByteBudgetConfig} {grants : List Grant} {state final : BudgetState}

theorem ungranted_queue (chosen : Chosen config grant) :
    ungranted grant.queue + 1 = ungranted grant.before.waiters := by
  have bypassed : (grant.older.map Waiter.bypass).countP (!·.granted) =
      grant.older.countP (!·.granted) := by
    rw [countP_map]
    congr 1
    funext waiter
    simp [granted_bypass]
  rw [chosen.queue, Grant.queue, ungranted, ungranted, countP_append, countP_append,
    bypassed, countP_cons, countP_cons]
  simp [chosen.waiting, Waiter.grant]
  omega

/-- The rounds of a loop: every grant is chosen in the state the one before it left. -/
inductive Rounds (config : BufferedByteBudgetConfig) :
    BudgetState → List Grant → BudgetState → Prop
  | stop {state : BudgetState} (settled : Settled config state) : Rounds config state [] state
  | round {next final : BudgetState} {grant : Grant} {grants : List Grant}
      (chosen : Chosen config grant) (applied : grant.apply = .ok next)
      (rest : Rounds config next grants final) :
      Rounds config grant.before (grant :: grants) final

theorem grantRounds_rounds {rounds : Nat} (enough : ungranted state.waiters ≤ rounds)
    (made : grantRounds config rounds state = .ok (grants, final)) :
    Rounds config state grants final := by
  induction rounds generalizing state grants with
  | zero =>
    cases made
    refine .stop (.inr fun a u b queue => ?_)
    -- With no round left every waiter has been granted.
    have none_ : ungranted final.waiters = 0 := by omega
    rw [ungranted, countP_eq_zero] at none_
    have granted := none_ u (by simp [queue])
    simpa [grantable] using fun waiting => absurd waiting (by simpa using granted)
  | succ rounds ih =>
    rw [grantRounds] at made
    cases choice : nextGrant config state with
    | none =>
      rw [choice] at made
      cases made
      exact .stop (nextGrant_eq_none choice)
    | some grant =>
      rw [choice] at made
      obtain ⟨rfl, chosen⟩ := nextGrant_eq_some choice
      obtain ⟨next, applied, made⟩ := bind_eq_ok.mp made
      obtain ⟨⟨others, last⟩, rest, made⟩ := bind_eq_ok.mp made
      cases made
      refine .round chosen applied (ih ?_ rest)
      have fewer := ungranted_queue chosen
      rw [(apply_queue applied).1]
      omega

theorem ungranted_le_length (waiters : List Waiter) : ungranted waiters ≤ waiters.length :=
  countP_le_length

theorem grantWaiters_rounds (made : grantWaiters config state = .ok (grants, final)) :
    Rounds config state grants final :=
  grantRounds_rounds (ungranted_le_length _) made

namespace Rounds

variable {config : BufferedByteBudgetConfig} {state final : BudgetState} {grants : List Grant}

theorem settled (rounds : Rounds config state grants final) : Settled config final := by
  induction rounds with
  | stop settled => exact settled
  | round _ _ _ ih => exact ih

/-- A property of states kept by every grant holds at the end and where each grant was chosen. -/
theorem invariant {P : BudgetState → Prop} (rounds : Rounds config state grants final)
    (keeps : ∀ grant next, Chosen config grant → grant.apply = .ok next → P grant.before → P next)
    (start : P state) : P final ∧ ∀ grant ∈ grants, Chosen config grant ∧ P grant.before := by
  induction rounds with
  | stop => exact ⟨start, by simp⟩
  | round chosen applied _ ih =>
    obtain ⟨last, each⟩ := ih (keeps _ _ chosen applied start)
    exact ⟨last, forall_mem_cons.mpr ⟨⟨chosen, start⟩, each⟩⟩

end Rounds

/-! ## Waiters by id -/

theorem takeWaiter_eq_some {id : UInt64} {rest : List Waiter}
    (found : takeWaiter id waiters = some (waiter, rest)) :
    waiter.id = id ∧ ∃ a b, waiters = a ++ waiter :: b ∧ rest = a ++ b := by
  induction waiters generalizing rest with
  | nil => cases found
  | cons first others ih =>
    rw [takeWaiter] at found
    split at found
    · next same =>
      cases found
      exact ⟨same, [], others, rfl, rfl⟩
    · obtain ⟨⟨w, r⟩, taken, equal⟩ := Option.map_eq_some_iff.mp found
      cases equal
      obtain ⟨same, a, b, rfl, rfl⟩ := ih taken
      exact ⟨same, first :: a, b, rfl, rfl⟩

theorem takeWaiter_isSome {id : UInt64} (member : waiter ∈ waiters) (same : waiter.id = id) :
    ∃ found rest, takeWaiter id waiters = some (found, rest) := by
  induction waiters with
  | nil => cases member
  | cons first others ih =>
    rw [takeWaiter]
    split
    · exact ⟨_, _, rfl⟩
    · next different =>
      rcases mem_cons.mp member with rfl | later
      · exact absurd same different
      · obtain ⟨found, rest, taken⟩ := ih later
        rw [taken]
        exact ⟨_, _, rfl⟩

/-- What a waiter keeps while it is queued. -/
def Waiter.core (waiter : Waiter) : UInt64 × TenantId × UInt64 :=
  (waiter.id, waiter.tenant, waiter.bytes)

theorem core_bypass (waiter : Waiter) : waiter.bypass.core = waiter.core := by
  rw [bypass]
  split <;> rfl

theorem core_queue (chosen : Chosen config grant) :
    grant.queue.map core = grant.before.waiters.map core := by
  rw [chosen.queue, Grant.queue, List.map_append, List.map_append, List.map_map, List.map_cons,
    List.map_cons]
  congr 1
  exact map_congr_left fun waiter _ => core_bypass waiter

theorem core_setWaker (id : UInt64) (waker : Waker) (waiters : List Waiter) :
    (setWaker id waker waiters).map core = waiters.map core := by
  induction waiters with
  | nil => rfl
  | cons first others ih =>
    rw [setWaker]
    split
    · rfl
    · rw [List.map_cons, List.map_cons, ih]

theorem Rounds.core (rounds : Rounds config state grants final) :
    final.waiters.map core = state.waiters.map core ∧
      final.closed = state.closed ∧ final.nextWaiterId = state.nextWaiterId := by
  induction rounds with
  | stop => exact ⟨rfl, rfl, rfl⟩
  | round chosen applied _ ih =>
    obtain ⟨queue, closed, next⟩ := apply_queue applied
    rw [ih.1, ih.2.1, ih.2.2, queue, closed, next, core_queue chosen]
    exact ⟨rfl, rfl, rfl⟩

theorem recordWait_queue (state : BudgetState) (registeredAt : Option Nat) (now : Nat) :
    (recordWait state registeredAt now).waiters = state.waiters ∧
      (recordWait state registeredAt now).closed = state.closed ∧
      (recordWait state registeredAt now).charged = state.charged ∧
      (recordWait state registeredAt now).tenantCharged = state.tenantCharged := by
  cases registeredAt <;> exact ⟨rfl, rfl, rfl, rfl⟩

end ByteAdmission
