import Fireweed.ByteAdmission.Granting
import Fireweed.Runs

/-!
# Scheduling of waiters

The queue is in registration order, and only the grant loop grants. A waiter never
overtakes an older one of its tenant, a waiter passed over often enough reserves
the global capacity it lacks, and between operations nothing is left to grant.
-/

namespace ByteAdmission

open BTree Checked List Runs Std

/-! ## The order of the queue -/

/-- Grants follow the queue within a tenant, and older waiters have been passed over more often. -/
structure Ordered (config : BufferedByteBudgetConfig) (waiters : List Waiter) : Prop where
  fifo : waiters.Pairwise fun older younger =>
    older.tenant = younger.tenant → younger.granted = true → older.granted = true
  aged : waiters.Pairwise fun older younger =>
    older.granted = false → younger.granted = false → younger.bypasses ≤ older.bypasses
  bounded : config.tenantLimit = none → ∀ waiter ∈ waiters, waiter.bypasses ≤ maxBypasses

theorem saturatingSucc_mono {a b : UInt8} (le : a ≤ b) : saturatingSucc a ≤ saturatingSucc b := by
  rw [UInt8.le_iff_toNat_le] at le ⊢
  rw [toNat_saturatingSucc, toNat_saturatingSucc]
  omega

theorem le_saturatingSucc (n : UInt8) : n ≤ saturatingSucc n := by
  have below := n.toNat_lt
  rw [UInt8.le_iff_toNat_le, toNat_saturatingSucc]
  omega

theorem saturatingSucc_le {n m : UInt8} (lt : n < m) : saturatingSucc n ≤ m := by
  rw [UInt8.lt_iff_toNat_lt] at lt
  rw [UInt8.le_iff_toNat_le, toNat_saturatingSucc]
  omega

variable {waiter : Waiter} {config : BufferedByteBudgetConfig} {state : BudgetState}
  {tenant : TenantId} {bytes : UInt64}

open Waiter

theorem bypass_of_waiting (waiting : waiter.granted = false) :
    waiter.bypass.bypasses = saturatingSucc waiter.bypasses := by
  rw [bypass, waiting]
  rfl

theorem tenant_bypass (waiter : Waiter) : waiter.bypass.tenant = waiter.tenant := by
  rw [bypass]
  split <;> rfl

theorem agedGlobal_eq_false (unreserved : agedGlobal config state = false)
    (queued : waiter ∈ state.waiters) (waiting : waiter.granted = false)
    (aged : maxBypasses ≤ waiter.bypasses) : fitsGlobal config state waiter.bytes = true := by
  rw [agedGlobal, any_eq_false] at unreserved
  simpa [waiting, aged] using unreserved waiter queued

namespace Ordered

variable {config : BufferedByteBudgetConfig} {waiters : List Waiter}

theorem nil : Ordered config [] := ⟨.nil, .nil, by simp⟩

theorem sublist (ordered : Ordered config waiters) {fewer : List Waiter}
    (shorter : fewer.Sublist waiters) : Ordered config fewer :=
  ⟨ordered.fifo.sublist shorter, ordered.aged.sublist shorter,
    fun free waiter member => ordered.bounded free waiter (shorter.subset member)⟩

/-- A new waiter is behind all others. -/
theorem push (ordered : Ordered config waiters) (waiting : waiter.granted = false)
    (fresh : waiter.bypasses = 0) : Ordered config (waiters ++ [waiter]) := by
  refine ⟨?_, ?_, ?_⟩
  · refine pairwise_append.mpr ⟨ordered.fifo, pairwise_singleton _ _, ?_⟩
    intro older _ younger member _ granted
    rw [mem_singleton.mp member, waiting] at granted
    cases granted
  · refine pairwise_append.mpr ⟨ordered.aged, pairwise_singleton _ _, ?_⟩
    intro older _ younger member _ _
    rw [mem_singleton.mp member, fresh]
    exact UInt8.zero_le
  · refine fun free => forall_mem_snoc (ordered.bounded free) ?_
    rw [fresh]
    decide

/-- Without tenant limits, a waiter that has been passed over eight times is passed over no more:
the oldest waiting request of its tenant has aged as much, and would be chosen first. -/
theorem unaged {grant : Grant} (chosen : Chosen config grant)
    (ordered : Ordered config grant.before.waiters) (free : config.tenantLimit = none)
    (older : waiter ∈ grant.older) (waiting : waiter.granted = false) :
    waiter.bypasses < maxBypasses := by
  by_contra notBelow
  have agedWaiter : maxBypasses ≤ waiter.bypasses := UInt8.not_lt.mp notBelow
  let same : Waiter → Bool := fun other => !other.granted && other.tenant == waiter.tenant
  have mine : same waiter = true := by simp [same, waiting]
  obtain ⟨first, found⟩ := Option.isSome_iff_exists.mp (find?_isSome.mpr ⟨waiter, older, mine⟩)
  obtain ⟨isSame, a, b, split_, none_⟩ := find?_eq_some_iff_append.mp found
  simp only [same, Bool.and_eq_true, Bool.not_eq_true', beq_iff_eq] at isSame
  have queue := chosen.queue
  rw [split_] at queue
  have firstAged : maxBypasses ≤ first.bypasses := by
    rw [split_, mem_append, mem_cons] at older
    rcases older with before | rfl | behind
    · exact absurd mine (by simpa using none_ waiter before)
    · exact agedWaiter
    · have pairs := ordered.aged
      rw [queue, append_assoc, pairwise_append, cons_append, pairwise_cons] at pairs
      exact UInt8.le_trans agedWaiter
        (pairs.2.1.1 waiter (mem_append_left _ behind) isSame.1 waiting)
  have queued : first ∈ grant.before.waiters := by simp [queue]
  have fitsFirst : fits config grant.before first.tenant first.bytes = true := by
    rw [fits, fitsTenant, free, agedGlobal_eq_false chosen.unreserved queued isSame.1 firstAged]
    rfl
  have able : grantable config grant.before a first = true := by
    refine grantable_eq_true.mpr ⟨isSame.1, fitsFirst, fun other member notGranted tenant => ?_⟩
    have different := none_ other member
    simp [same, notGranted, tenant, isSame.2] at different
  rw [chosen.first a first b split_] at able
  cases able

theorem grant {grant : Grant} (chosen : Chosen config grant)
    (ordered : Ordered config grant.before.waiters) : Ordered config grant.queue := by
  have fifo := ordered.fifo
  have aged := ordered.aged
  rw [chosen.queue, pairwise_append, pairwise_cons] at fifo aged
  refine ⟨?_, ?_, ?_⟩
  · rw [Grant.queue, pairwise_append, pairwise_map, pairwise_cons]
    refine ⟨fifo.1.imp ?_, ⟨fun _ _ _ _ => rfl, fifo.2.1.2⟩, ?_⟩
    · intro a b related
      rw [tenant_bypass, tenant_bypass, granted_bypass, granted_bypass]
      exact related
    · intro passed member younger behind
      obtain ⟨older, before, rfl⟩ := mem_map.mp member
      rw [tenant_bypass, granted_bypass]
      rcases mem_cons.mp behind with rfl | behind
      · intro tenant _
        by_contra waiting
        exact chosen.oldest older before (by simpa using waiting) tenant
      · exact fifo.2.2 older before younger (mem_cons_of_mem _ behind)
  · rw [Grant.queue, pairwise_append, pairwise_map, pairwise_cons]
    refine ⟨aged.1.imp ?_, ⟨?_, aged.2.1.2⟩, ?_⟩
    · intro a b related
      rw [granted_bypass, granted_bypass]
      intro first second
      rw [bypass_of_waiting first, bypass_of_waiting second]
      exact saturatingSucc_mono (related first second)
    · intro younger _ granted
      cases granted
    · intro passed member younger behind
      obtain ⟨older, before, rfl⟩ := mem_map.mp member
      rw [granted_bypass]
      intro first second
      rw [bypass_of_waiting first]
      rcases mem_cons.mp behind with rfl | behind
      · cases second
      · exact UInt8.le_trans
          (aged.2.2 older before younger (mem_cons_of_mem _ behind) first second)
          (le_saturatingSucc _)
  · intro free waiter member
    have bound := ordered.bounded free
    rw [Grant.queue, mem_append, mem_cons] at member
    rcases member with passed | rfl | behind
    · obtain ⟨older, before, rfl⟩ := mem_map.mp passed
      cases waiting : older.granted with
      | true =>
        rw [bypass, waiting]
        exact bound older (by simp [chosen.queue, before])
      | false =>
        rw [bypass_of_waiting waiting]
        exact saturatingSucc_le (unaged chosen ordered free before waiting)
    · exact bound grant.waiter (by simp [chosen.queue])
    · exact bound waiter (by simp [chosen.queue, behind])

end Ordered

/-! ## Wakers do not matter -/

def Waiter.view (waiter : Waiter) : Waiter := { waiter with waker := none }

theorem view_setWaker (id : UInt64) (waker : Waker) (waiters : List Waiter) :
    (setWaker id waker waiters).map view = waiters.map view := by
  induction waiters with
  | nil => rfl
  | cons first others ih =>
    rw [setWaker]
    split
    · rfl
    · rw [map_cons, map_cons, ih]

theorem Ordered.view {waiters : List Waiter} :
    Ordered config (waiters.map view) ↔ Ordered config waiters := by
  constructor
  · rintro ⟨fifo, aged, bounded⟩
    exact ⟨pairwise_map.mp fifo, pairwise_map.mp aged, fun free waiter member =>
      bounded free waiter.view (mem_map_of_mem member)⟩
  · rintro ⟨fifo, aged, bounded⟩
    refine ⟨pairwise_map.mpr fifo, pairwise_map.mpr aged, fun free waiter member => ?_⟩
    obtain ⟨original, stored, rfl⟩ := mem_map.mp member
    exact bounded free original stored

theorem Settled.rewake (settled : Settled config state) (id : UInt64) (waker : Waker) :
    Settled config { state with waiters := setWaker id waker state.waiters } := by
  have views := view_setWaker id waker state.waiters
  rcases settled with reserved | quiet
  · left
    rw [agedGlobal, any_eq_true] at reserved ⊢
    obtain ⟨waiter, queued, reserves⟩ := reserved
    have member : waiter.view ∈ (setWaker id waker state.waiters).map view :=
      views ▸ mem_map_of_mem queued
    obtain ⟨same, stored, equal⟩ := mem_map.mp member
    refine ⟨same, stored, ?_⟩
    obtain ⟨granted, bypasses, bytes⟩ : same.granted = waiter.granted ∧
        same.bypasses = waiter.bypasses ∧ same.bytes = waiter.bytes := by
      simp only [view, mk.injEq] at equal
      exact ⟨equal.2.2.2.1, equal.2.2.2.2.1, equal.2.2.1⟩
    rw [granted, bypasses, bytes]
    exact reserves
  · right
    intro a u b queue
    change setWaker id waker state.waiters = a ++ u :: b at queue
    rw [queue, map_append, map_cons, eq_comm, map_eq_append_iff] at views
    obtain ⟨a', rest, whole, older, behind⟩ := views
    obtain ⟨u', b', rfl, waiter, -⟩ := map_eq_cons_iff.mp behind
    have before := quiet a' u' b' whole
    have same : grantable config state (a'.map view) u'.view =
        grantable config state a' u' := by
      simp [grantable, view, Function.comp_def]
    have same' : grantable config state (a.map view) u.view =
        grantable config { state with waiters := setWaker id waker state.waiters } a u := by
      simp only [grantable, view, any_map, Function.comp_def]
      rfl
    rw [← same', ← older, ← waiter, same]
    exact before

/-! ## What an operation does to the queue -/

/-- The queue that the grant loop starts from: one waiter may have left, or one has registered. -/
def Requeued (before mid : BudgetState) : Prop :=
  mid.waiters.Sublist before.waiters ∨
    ∃ waiter, mid.waiters = before.waiters ++ [waiter] ∧ waiter.id = before.nextWaiterId ∧
      waiter.granted = false ∧ waiter.bypasses = 0

/-- What an operation does to the queue. -/
inductive QueueStep (config : BufferedByteBudgetConfig) (before : BudgetState) :
    List Grant → BudgetState → Prop
  | kept {after : BudgetState} (waiters : after.waiters = before.waiters)
      (charged : after.charged = before.charged)
      (tenants : after.tenantCharged = before.tenantCharged)
      (closed : after.closed = before.closed) : QueueStep config before [] after
  | rewoken (id : UInt64) (waker : Waker) :
      QueueStep config before [] { before with waiters := setWaker id waker before.waiters }
  | admitted {after : BudgetState} (empty : before.waiters = []) (waiters : after.waiters = []) :
      QueueStep config before [] after
  | shut {after : BudgetState} (closed : after.closed = true)
      (waiters : after.waiters.Sublist before.waiters) : QueueStep config before [] after
  | granted {mid after : BudgetState} {grants : List Grant} (queue : Requeued before mid)
      (closed : mid.closed = before.closed) (rounds : Rounds config mid grants after) :
      QueueStep config before grants after

theorem unchargeWith_queue {after : BudgetState} {above missing below : String}
    (taken : unchargeWith state tenant bytes above missing below = .ok after) :
    after.waiters = state.waiters ∧ after.closed = state.closed := by
  obtain ⟨_, -, taken⟩ := bind_eq_ok.mp taken
  obtain ⟨_, -, taken⟩ := bind_eq_ok.mp taken
  obtain ⟨_, -, taken⟩ := bind_eq_ok.mp taken
  cases taken
  exact ⟨rfl, rfl⟩

theorem unchargeGranted_queue {after : BudgetState}
    (taken : unchargeGranted state waiter = .ok after) :
    after.waiters = state.waiters ∧ after.closed = state.closed := by
  rw [unchargeGranted] at taken
  split at taken
  · exact unchargeWith_queue taken
  · cases taken
    exact ⟨rfl, rfl⟩

theorem takeWaiter_sublist {id : UInt64} {waiters rest : List Waiter}
    (taken : takeWaiter id waiters = some (waiter, rest)) : rest.Sublist waiters := by
  obtain ⟨-, a, b, rfl, rfl⟩ := takeWaiter_eq_some taken
  exact (sublist_cons_self waiter b).append_left a

section Inversion

variable {config : BufferedByteBudgetConfig} {before after : BudgetState}

theorem tryAcquire_queue {result : Admission}
    (done : tryAcquire config before tenant bytes = .ok (result, after)) :
    QueueStep config before [] after ∧ (∀ permit, result = .ok permit → before.waiters = []) := by
  have refused : ∀ error : ByteAdmissionError,
      (Except.ok (Except.error error, before.reject) : Except Panic (Admission × BudgetState)) =
        .ok (result, after) →
      QueueStep config before [] after ∧ (∀ permit, result = .ok permit → before.waiters = []) := by
    intro error equal
    cases equal
    exact ⟨.kept rfl rfl rfl rfl, fun permit admitted => by cases admitted⟩
  rw [tryAcquire] at done
  split at done
  · exact refused _ done
  · split at done
    · exact refused _ done
    · split at done
      · exact refused _ done
      · next admitted =>
        simp only [Bool.or_eq_true, Bool.not_eq_true', not_or, Bool.not_eq_false,
          List.isEmpty_iff] at admitted
        obtain ⟨charged, here, done⟩ := bind_eq_ok.mp done
        cases done
        have empty : after.waiters = [] := (charge_queue here).1.trans admitted.1
        exact ⟨.admitted admitted.1 empty, fun _ _ => admitted.1⟩

theorem close_queue {woken : List Waker} (done : close before = .ok (woken, after)) :
    QueueStep config before [] after := by
  obtain ⟨final, folded, done⟩ := bind_eq_ok.mp done
  cases done
  have emptied : after.waiters = [] ∧ after.closed = true := by
    refine foldlM_invariant (P := fun _ state => state.waiters = [] ∧ state.closed = true)
      ⟨rfl, rfl⟩ ?_ folded
    rintro - waiter state next ⟨waiters, closed⟩ revoked
    rw [revoke] at revoked
    split at revoked
    · obtain ⟨same, still⟩ := unchargeWith_queue revoked
      exact ⟨same.trans waiters, still.trans closed⟩
    · cases revoked
      exact ⟨waiters, closed⟩
  exact .shut emptied.2 (emptied.1 ▸ nil_sublist _)

variable {grants : List Grant} {future : ByteBudgetAcquire}

theorem release_queue (done : release config before tenant bytes = .ok (grants, after)) :
    QueueStep config before grants after := by
  obtain ⟨mid, taken, made⟩ := bind_eq_ok.mp done
  obtain ⟨queue, closed⟩ := unchargeWith_queue taken
  exact .granted (.inl (queue ▸ .refl _)) closed (grantWaiters_rounds made)

theorem dropAcquire_queue (done : dropAcquire config before future = .ok (grants, after)) :
    QueueStep config before grants after := by
  rw [dropAcquire] at done
  split at done
  · cases done
    exact .kept rfl rfl rfl rfl
  · cases taken : future.waiterId.bind (takeWaiter · before.waiters) with
    | none =>
      rw [taken] at done
      cases done
      exact .kept rfl rfl rfl rfl
    | some pair =>
      obtain ⟨waiter, rest⟩ := pair
      rw [taken] at done
      obtain ⟨mid, uncharged, made⟩ := bind_eq_ok.mp done
      obtain ⟨id, -, taken⟩ := Option.bind_eq_some_iff.mp taken
      obtain ⟨queue, closed⟩ := unchargeGranted_queue uncharged
      exact .granted (.inl (queue ▸ takeWaiter_sublist taken)) closed (grantWaiters_rounds made)

theorem pollClosed_queue {polled : Polled} (shut : before.closed = true)
    (done : pollClosed before future = .ok polled) :
    QueueStep config before polled.grants polled.state ∧
      polled.result = .ready (.error .closed) := by
  rw [pollClosed] at done
  dsimp only at done
  split at done
  · next waiter rest found =>
    obtain ⟨id, -, found⟩ := Option.bind_eq_some_iff.mp found
    obtain ⟨state, taken, done⟩ := bind_eq_ok.mp done
    cases done
    obtain ⟨queue, closed⟩ := unchargeGranted_queue taken
    exact ⟨.shut (closed.trans shut) (queue ▸ takeWaiter_sublist found), rfl⟩
  · cases done
    exact ⟨.shut shut (.refl _), rfl⟩

section

variable {future : ByteBudgetAcquire} {waker : Waker} {now : Nat} {polled : Polled}

theorem pollRegistered_queue {id : UInt64}
    (done : pollRegistered config before future id waker now = .ok polled) :
    QueueStep config before polled.grants polled.state := by
  obtain ⟨⟨waiter, rest⟩, taken, done⟩ := bind_eq_ok.mp done
  have found := expectSome_eq_ok.mp taken
  change (if waiter.granted then _ else _) = _ at done
  split at done
  · obtain ⟨⟨grants, final⟩, made, done⟩ := bind_eq_ok.mp done
    cases done
    have mid := recordWait_queue { before with waiters := rest } future.registeredAt now
    exact .granted (.inl (mid.1 ▸ takeWaiter_sublist found)) mid.2.1 (grantWaiters_rounds made)
  · cases done
    exact .rewoken id waker

theorem pollFirst_queue (done : pollFirst config before future waker now = .ok polled) :
    QueueStep config before polled.grants polled.state ∧
      (polled.result = .pending ∨ before.waiters = []) := by
  rw [pollFirst] at done
  split at done
  · next admitted =>
    rw [Bool.and_eq_true, List.isEmpty_iff] at admitted
    obtain ⟨charged, here, done⟩ := bind_eq_ok.mp done
    cases done
    exact ⟨.admitted admitted.1 ((charge_queue here).1.trans admitted.1), .inr admitted.1⟩
  · obtain ⟨⟨grants, final⟩, made, done⟩ := bind_eq_ok.mp done
    cases done
    refine ⟨.granted ?_ ?_ (grantWaiters_rounds made), .inl rfl⟩
    · exact .inr ⟨_, rfl, rfl, rfl, rfl⟩
    · rfl

theorem poll_queue (done : poll config before future waker now = .ok polled) :
    QueueStep config before polled.grants polled.state ∧
      (future.waiterId = none → ∀ permit, polled.result = .ready (.ok permit) →
        before.waiters = []) := by
  rw [poll] at done
  split at done
  · cases done
    exact ⟨.kept rfl rfl rfl rfl, fun _ permit admitted => by cases admitted⟩
  · split at done
    · next shut =>
      obtain ⟨queue, result⟩ := pollClosed_queue shut done
      refine ⟨queue, fun _ permit admitted => ?_⟩
      rw [result] at admitted
      cases admitted
    · cases registered : future.waiterId with
      | some id =>
        rw [registered] at done
        exact ⟨pollRegistered_queue done, fun none_ => by cases none_⟩
      | none =>
        rw [registered] at done
        obtain ⟨queue, result⟩ := pollFirst_queue done
        refine ⟨queue, fun _ permit admitted => result.resolve_left fun pending => ?_⟩
        rw [pending] at admitted
        cases admitted

end

end Inversion

/-! ## Runs -/

/-- The request of the action is new: it has not been queued before. -/
def NewRequest (before : System) : Action → Prop
  | .tryAcquire _ _ => True
  | .poll key _ _ => ∀ future, before.futures[key]? = some future → future.waiterId = none
  | _ => False

def Reply.admitted : Reply → Bool
  | .admission (.ok _) => true
  | .polled (.ready (.ok _)) => true
  | _ => false

theorem perform_queue {before : System} {action : Action} {outcome : Outcome}
    (step : perform config before action = .ok outcome) :
    QueueStep config before.budget outcome.grants outcome.after.budget ∧
      (NewRequest before action → outcome.reply.admitted = true → before.budget.waiters = []) := by
  have same : QueueStep config before.budget [] before.budget := .kept rfl rfl rfl rfl
  cases action with
  | tryAcquire tenant bytes =>
    obtain ⟨⟨result, budget⟩, done, equal⟩ := bind_eq_ok.mp step
    cases equal
    obtain ⟨queue, direct⟩ := tryAcquire_queue done
    refine ⟨queue, fun _ admitted => ?_⟩
    cases result with
    | ok permit => exact direct permit rfl
    | error error => cases admitted
  | acquire key tenant bytes =>
    rw [perform] at step
    split at step <;>
    · cases step
      exact ⟨.kept rfl rfl rfl rfl, fun new => new.elim⟩
  | poll key waker now =>
    rw [perform] at step
    split at step
    · next future found =>
      obtain ⟨polled, done, equal⟩ := bind_eq_ok.mp step
      cases equal
      obtain ⟨queue, direct⟩ := poll_queue done
      refine ⟨queue, fun new admitted => ?_⟩
      cases result : polled.result with
      | pending =>
        simp [Reply.admitted, result] at admitted
      | ready answer =>
        cases answer with
        | ok permit => exact direct (new future found) permit result
        | error error => simp [Reply.admitted, result] at admitted
    · cases step
      exact ⟨same, fun _ admitted => by cases admitted⟩
  | dropAcquire key =>
    rw [perform] at step
    split at step
    · obtain ⟨⟨made, budget⟩, done, equal⟩ := bind_eq_ok.mp step
      cases equal
      exact ⟨dropAcquire_queue done, fun new => new.elim⟩
    · cases step
      exact ⟨same, fun new => new.elim⟩
  | dropPermit index =>
    rw [perform] at step
    split at step
    · obtain ⟨⟨made, budget⟩, done, equal⟩ := bind_eq_ok.mp step
      cases equal
      exact ⟨release_queue done, fun new => new.elim⟩
    · cases step
      exact ⟨same, fun new => new.elim⟩
  | close =>
    obtain ⟨⟨woken, budget⟩, done, equal⟩ := bind_eq_ok.mp step
    cases equal
    exact ⟨close_queue done, fun new => new.elim⟩

/-- The invariant of runs. -/
structure Scheduled (config : BufferedByteBudgetConfig) (state : BudgetState) : Prop where
  ordered : Ordered config state.waiters
  settled : state.closed = false → Settled config state

namespace QueueStep

variable {config : BufferedByteBudgetConfig} {before after : BudgetState} {grants : List Grant}

theorem scheduled (step : QueueStep config before grants after)
    (scheduled : Scheduled config before) :
    Scheduled config after ∧
      ∀ grant ∈ grants, Chosen config grant ∧ Ordered config grant.before.waiters := by
  cases step with
  | kept waiters charged tenants closed =>
    refine ⟨⟨waiters ▸ scheduled.ordered, fun open_ => ?_⟩, by simp⟩
    have settled := scheduled.settled (closed ▸ open_)
    simpa only [Settled, agedGlobal, grantable, fits, fitsGlobal, fitsTenant, waiters, charged,
      tenants] using settled
  | rewoken id waker =>
    refine ⟨⟨?_, fun open_ => (scheduled.settled open_).rewake id waker⟩, by simp⟩
    change Ordered config (setWaker id waker before.waiters)
    rw [← Ordered.view, view_setWaker, Ordered.view]
    exact scheduled.ordered
  | admitted empty waiters =>
    refine ⟨⟨waiters ▸ .nil, fun _ => .inr fun a u b queue => ?_⟩, by simp⟩
    rw [waiters] at queue
    simp at queue
  | shut closed waiters =>
    refine ⟨⟨scheduled.ordered.sublist waiters, fun open_ => ?_⟩, by simp⟩
    rw [closed] at open_
    cases open_
  | @granted mid _ _ queue closed rounds =>
    have start : Ordered config mid.waiters := by
      rcases queue with shorter | ⟨waiter, longer, -, waiting, fresh⟩
      · exact scheduled.ordered.sublist shorter
      · exact longer ▸ scheduled.ordered.push waiting fresh
    obtain ⟨last, each⟩ := rounds.invariant
      (P := fun state => Ordered config state.waiters)
      (fun grant next chosen applied ordered => by
        rw [(apply_queue applied).1]
        exact ordered.grant chosen) start
    exact ⟨⟨last, fun _ => rounds.settled⟩, each⟩

/-- The queue keeps its order; a new waiter is at its end. -/
theorem ids (step : QueueStep config before grants after) :
    (after.waiters.map Waiter.id).Sublist
      (before.waiters.map Waiter.id ++ [before.nextWaiterId]) := by
  have core : ∀ {a b : List Waiter}, a.map Waiter.core = b.map Waiter.core →
      a.map Waiter.id = b.map Waiter.id := by
    intro a b same
    have := congrArg (List.map Prod.fst) same
    rwa [List.map_map, List.map_map] at this
  cases step with
  | kept waiters => exact waiters ▸ sublist_append_left _ _
  | rewoken id waker =>
    change ((setWaker id waker before.waiters).map _).Sublist _
    rw [core (core_setWaker id waker before.waiters)]
    exact sublist_append_left _ _
  | admitted empty waiters => exact waiters ▸ nil_sublist _
  | shut closed waiters => exact (waiters.map _).trans (sublist_append_left _ _)
  | granted queue closed rounds =>
    rw [core rounds.core.1]
    rcases queue with shorter | ⟨waiter, longer, id, -⟩
    · exact (shorter.map _).trans (sublist_append_left _ _)
    · rw [longer, map_append, map_singleton, id]

end QueueStep

/-- The laws of one step of a run. -/
structure Scheduling (config : BufferedByteBudgetConfig) (before : System) (action : Action)
    (outcome : Outcome) : Prop where
  /-- The queue stays in registration order. -/
  queue : (outcome.after.budget.waiters.map Waiter.id).Sublist
    (before.budget.waiters.map Waiter.id ++ [before.budget.nextWaiterId])
  /-- Waiters of one tenant are granted in queue order. -/
  fifo : outcome.after.budget.waiters.Pairwise fun older younger =>
    older.tenant = younger.tenant → younger.granted = true → older.granted = true
  oldest : ∀ grant ∈ outcome.grants,
    grant.before.waiters = grant.older ++ grant.waiter :: grant.younger ∧
      ∀ older ∈ grant.older, older.granted = false → older.tenant ≠ grant.waiter.tenant
  /-- No waiter is left grantable. -/
  settled : outcome.after.budget.closed = false →
    (∃ waiter ∈ outcome.after.budget.waiters, waiter.granted = false ∧
      maxBypasses ≤ waiter.bypasses ∧
      fitsGlobal config outcome.after.budget waiter.bytes = false) ∨
    ∀ a waiter b, outcome.after.budget.waiters = a ++ waiter :: b → waiter.granted = false →
      fits config outcome.after.budget waiter.tenant waiter.bytes = false ∨
        ∃ older ∈ a, older.granted = false ∧ older.tenant = waiter.tenant
  /-- No grant passes over an aged waiter that lacks global capacity. -/
  reserved : ∀ grant ∈ outcome.grants, ∀ older ∈ grant.older, older.granted = false →
    maxBypasses ≤ older.bypasses → fitsGlobal config grant.before older.bytes = true
  bounded : config.tenantLimit = none →
    ∀ waiter ∈ outcome.after.budget.waiters, waiter.bypasses ≤ maxBypasses
  /-- Only an empty queue is skipped. -/
  direct : NewRequest before action → outcome.reply.admitted = true → before.budget.waiters = []

theorem Settled.explicit (settled : Settled config state) :
    (∃ waiter ∈ state.waiters, waiter.granted = false ∧ maxBypasses ≤ waiter.bypasses ∧
      fitsGlobal config state waiter.bytes = false) ∨
    ∀ a waiter b, state.waiters = a ++ waiter :: b → waiter.granted = false →
      fits config state waiter.tenant waiter.bytes = false ∨
        ∃ older ∈ a, older.granted = false ∧ older.tenant = waiter.tenant := by
  rcases settled with reserved | quiet
  · left
    simpa [agedGlobal, and_assoc] using reserved
  · right
    intro a waiter b queue waiting
    have unable := quiet a waiter b queue
    by_contra free
    push Not at free
    have able : grantable config state a waiter = true :=
      grantable_eq_true.mpr ⟨waiting, by simpa using free.1, free.2⟩
    rw [unable] at able
    cases able

/-- Every step of every run obeys the laws. -/
theorem run_scheduling {config : BufferedByteBudgetConfig} {past : List Action} {action : Action}
    {before : System} {outcome : Outcome} (run : Run (Step config) .initial past before)
    (step : perform config before action = .ok outcome) :
    Scheduling config before action outcome := by
  have scheduled : Scheduled config before.budget := by
    refine run.invariant (P := fun sys => Scheduled config sys.budget) ?_ ?_
    · exact ⟨.nil, fun _ => .inr (by simp [System.initial, BudgetState.new])⟩
    · rintro _ _ _ kept ⟨_, _, one⟩
      exact ((perform_queue one).1.scheduled kept).1
  obtain ⟨queue, direct⟩ := perform_queue step
  obtain ⟨next, grants⟩ := queue.scheduled scheduled
  exact {
    queue := queue.ids
    fifo := next.ordered.fifo
    oldest := fun grant made => ⟨(grants grant made).1.queue, (grants grant made).1.oldest⟩
    settled := fun open_ => (next.settled open_).explicit
    reserved := fun grant made older member waiting aged =>
      agedGlobal_eq_false (grants grant made).1.unreserved
        (by simp [(grants grant made).1.queue, member]) waiting aged
    bounded := next.ordered.bounded
    direct }

theorem open_positive : (0 : UInt64) < 10 := by decide

def openConfig : BufferedByteBudgetConfig := ⟨10, none, open_positive, by simp⟩

/-- A large request waits; a small one that fits is granted and passes it over. -/
theorem run_scheduling_bypass :
    ∃ before outcome, Run (Step openConfig) .initial
        [.tryAcquire "holder" 9, .acquire 0 "cold" 10, .poll 0 1 0, .acquire 1 "hot" 1] before ∧
      perform openConfig before (.poll 1 2 0) = .ok outcome ∧
      outcome.after.budget.waiters.map (fun w => (w.granted, w.bypasses)) =
        [(false, 1), (true, 0)] ∧
      Scheduling openConfig before (.poll 1 2 0) outcome := by
  have computed : (runAll (nextSystem openConfig) .initial
      [.tryAcquire "holder" 9, .acquire 0 "cold" 10, .poll 0 1 0, .acquire 1 "hot" 1]).bind
      (fun sys => (perform openConfig sys (.poll 1 2 0)).toOption.map fun outcome =>
        outcome.after.budget.waiters.map fun w => (w.granted, w.bypasses)) =
      some [(false, 1), (true, 0)] := by
    decide +kernel
  obtain ⟨before, reached, last⟩ := Option.bind_eq_some_iff.mp computed
  obtain ⟨outcome, here, queue⟩ := Option.map_eq_some_iff.mp last
  have run := runAll_run nextSystem_step reached
  have step := toOption_eq_some.mp here
  exact ⟨before, outcome, run, step, queue, run_scheduling run step⟩

end ByteAdmission
