import Fireweed.ByteAdmission.Accounting

/-!
# Conservation of bytes over whole runs

The queue and the futures belong together: every waiter has its future, and a
future that has registered and not completed has its waiter until the budget is
closed. With that, each operation finds what it expects and keeps the books.
-/

namespace ByteAdmission

open BTree Checked Ledger List Runs Std Waiter ByteAdmission.System

abbrev Core := UInt64 × TenantId × UInt64

/-- The future waits with this id, tenant and size. -/
def ByteBudgetAcquire.Registered (future : ByteBudgetAcquire) (core : Core) : Prop :=
  future.completed = false ∧ future.waiterId = some core.1 ∧ future.tenant = core.2.1 ∧
    future.bytes = core.2.2

/-- The waiters of the queue and the futures belong together. -/
structure Linked (config : BufferedByteBudgetConfig) (closed : Bool) (cores : List Core)
    (futures : BTreeMap Nat ByteBudgetAcquire) : Prop where
  ids : (cores.map Prod.fst).Nodup
  owned : ∀ core ∈ cores, ∃ (key : Nat) (future : ByteBudgetAcquire),
    futures[key]? = some future ∧ future.Registered core
  queued : closed = false → ∀ (key : Nat) (future : ByteBudgetAcquire) (id : UInt64),
    futures[key]? = some future → future.completed = false → future.waiterId = some id →
      (id, future.tenant, future.bytes) ∈ cores
  apart : ∀ (key key' : Nat) (future future' : ByteBudgetAcquire) (id : UInt64),
    futures[key]? = some future → futures[key']? = some future' →
      future.completed = false → future'.completed = false →
        future.waiterId = some id → future'.waiterId = some id → key = key'
  emptied : closed = true → cores = []
  sizes : ∀ (key : Nat) (future : ByteBudgetAcquire), futures[key]? = some future →
    future.bytes ≠ 0
  valid : ∀ (key : Nat) (future : ByteBudgetAcquire) (id : UInt64),
    futures[key]? = some future → future.waiterId = some id →
      validateRequest config future.bytes = .ok ()

variable {bytes id : UInt64}

namespace Linked

variable {config : BufferedByteBudgetConfig} {closed : Bool} {cores cores' : List Core}
  {futures futures' : BTreeMap Nat ByteBudgetAcquire} {key : Nat} {future : ByteBudgetAcquire}

section

variable (linked : Linked config closed cores futures)

include linked

theorem core_sizes : ∀ core ∈ cores, core.2.2 ≠ 0 := by
  intro core member
  obtain ⟨key, future, found, registered⟩ := linked.owned core member
  rw [← registered.2.2.2]
  exact linked.sizes key future found

theorem close : Linked config true [] futures where
  ids := nodup_nil
  owned := by simp
  queued := by simp
  apart := linked.apart
  emptied := fun _ => rfl
  sizes := linked.sizes
  valid := linked.valid

/-- A new future is not registered. -/
theorem create (free : futures[key]? = none) (tenant : TenantId) (size : bytes ≠ 0) :
    Linked config closed cores (futures.insert key (acquire tenant bytes)) where
  ids := linked.ids
  owned core member := by
    obtain ⟨other, future, found, registered⟩ := linked.owned core member
    refine ⟨other, future, ?_, registered⟩
    rw [get_insert_ne]
    · exact found
    · rintro rfl
      rw [free] at found
      cases found
  queued open_ other future id found waiting registered := by
    rw [get_insert] at found
    split at found
    · cases found
      cases registered
    · exact linked.queued open_ other future id found waiting registered
  apart k k' f f' id found found' waiting waiting' registered registered' := by
    rw [get_insert] at found found'
    split at found
    · cases found
      cases registered
    · split at found'
      · cases found'
        cases registered'
      · exact linked.apart k k' f f' id found found' waiting waiting' registered registered'
  emptied := linked.emptied
  sizes := forall_insert size linked.sizes
  valid other future id found registered := by
    rw [get_insert] at found
    split at found
    · cases found
      cases registered
    · exact linked.valid other future id found registered

/-- A future that completes or is dropped takes its waiter, if it has one, out of the queue. -/
theorem retire (found : futures[key]? = some future)
    (others : ∀ k ≠ key, futures'[k]? = futures[k]?)
    (done : ∀ f, futures'[key]? = some f →
      f.completed = true ∧ f.bytes = future.bytes ∧ f.waiterId = future.waiterId)
    (shorter : cores'.Sublist cores) (gone : ∀ core ∈ cores', ¬ future.Registered core)
    (kept : ∀ core ∈ cores, core ∈ cores' ∨ future.Registered core) :
    Linked config closed cores' futures' where
  ids := linked.ids.sublist (shorter.map _)
  owned core member := by
    obtain ⟨other, waiting, stored, registered⟩ := linked.owned core (shorter.subset member)
    refine ⟨other, waiting, ?_, registered⟩
    rw [others other]
    · exact stored
    · rintro rfl
      rw [found, Option.some.injEq] at stored
      exact gone core member (stored ▸ registered)
  queued open_ other waiting id stored pending registered := by
    by_cases same : other = key
    · subst same
      rw [(done waiting stored).1] at pending
      cases pending
    · rw [others other same] at stored
      have before := linked.queued open_ other waiting id stored pending registered
      refine (kept _ before).resolve_right fun mine => same ?_
      exact linked.apart other key waiting future id stored found pending mine.1 registered mine.2.1
  apart k k' f f' id stored stored' pending pending' := by
    have unlike : ∀ k f, futures'[k]? = some f → f.completed = false → k ≠ key := by
      rintro k f stored pending rfl
      rw [(done f stored).1] at pending
      cases pending
    rw [others k (unlike k f stored pending)] at stored
    rw [others k' (unlike k' f' stored' pending')] at stored'
    exact linked.apart k k' f f' id stored stored' pending pending'
  emptied shut := by
    have empty := linked.emptied shut
    subst empty
    exact sublist_nil.mp shorter
  sizes other waiting stored := by
    by_cases same : other = key
    · subst same
      rw [(done waiting stored).2.1]
      exact linked.sizes other future found
    · exact linked.sizes other waiting (others other same ▸ stored)
  valid other waiting id stored registered := by
    by_cases same : other = key
    · subst same
      obtain ⟨-, bytes, waiter⟩ := done waiting stored
      rw [bytes]
      exact linked.valid other future id found (waiter ▸ registered)
    · exact linked.valid other waiting id (others other same ▸ stored) registered

end

theorem register (linked : Linked config false cores futures) (found : futures[key]? = some future)
    (pending : future.completed = false) (unregistered : future.waiterId = none)
    (valid : validateRequest config future.bytes = .ok ()) (now : Nat)
    (fresh : ∀ (k : Nat) (f : ByteBudgetAcquire), futures[k]? = some f → f.completed = false →
      f.waiterId ≠ some id) :
    Linked config false (cores ++ [(id, future.tenant, future.bytes)])
      (futures.insert key { future with waiterId := some id, registeredAt := some now }) where
  ids := by
    rw [map_append, nodup_append]
    refine ⟨linked.ids, nodup_singleton _, ?_⟩
    intro used member new isNew
    obtain ⟨core, stored, rfl⟩ := mem_map.mp member
    obtain ⟨k, f, waiting, registered⟩ := linked.owned core stored
    rw [map_singleton, mem_singleton] at isNew
    subst isNew
    exact fun same => fresh k f waiting registered.1 (same ▸ registered.2.1)
  owned core member := by
    rcases mem_append.mp member with old | new
    · obtain ⟨k, f, waiting, registered⟩ := linked.owned core old
      refine ⟨k, f, ?_, registered⟩
      rw [get_insert_ne]
      · exact waiting
      · rintro rfl
        rw [found, Option.some.injEq] at waiting
        subst waiting
        rw [registered.2.1] at unregistered
        cases unregistered
    · rw [mem_singleton] at new
      subst new
      exact ⟨key, _, get_insert_self .., pending, rfl, rfl, rfl⟩
  queued open_ k f used stored waiting registered := by
    rw [get_insert] at stored
    split at stored
    · cases stored
      cases registered
      exact mem_append_right _ (mem_singleton.mpr rfl)
    · exact mem_append_left _ (linked.queued open_ k f used stored waiting registered)
  apart k k' f f' used stored stored' waiting waiting' registered registered' := by
    rw [get_insert] at stored stored'
    split at stored
    · next same =>
      cases stored
      cases registered
      split at stored'
      · next same' => exact same.symm.trans same'
      · exact absurd registered' (fresh k' f' stored' waiting')
    · split at stored'
      · cases stored'
        cases registered'
        exact absurd registered (fresh k f stored waiting)
      · exact linked.apart k k' f f' used stored stored' waiting waiting' registered registered'
  emptied shut := by cases shut
  sizes := forall_insert (linked.sizes key future found) linked.sizes
  valid k f used stored registered := by
    rw [get_insert] at stored
    split at stored
    · cases stored
      exact valid
    · exact linked.valid k f used stored registered

/-- A removed waiter was the only one with its id. -/
theorem removed {a b : List Core} {core : Core}
    (linked : Linked config closed (a ++ core :: b) futures) (registered : future.Registered core) :
    (∀ other ∈ a ++ b, ¬ future.Registered other) ∧
      ∀ other ∈ a ++ core :: b, other ∈ a ++ b ∨ future.Registered other := by
  have ids := linked.ids
  rw [map_append, map_cons, nodup_middle, nodup_cons, ← map_append] at ids
  constructor
  · intro other member mine
    have same : some other.1 = some core.1 := mine.2.1.symm.trans registered.2.1
    exact ids.1 (Option.some.inj same ▸ mem_map_of_mem member)
  · intro other member
    rw [mem_append, mem_cons] at member
    rcases member with left | rfl | right
    · exact .inl (mem_append_left _ left)
    · exact .inr registered
    · exact .inl (mem_append_right _ right)

/-- An unregistered or completed future has no waiter. -/
theorem unregistered {cores : List Core}
    (none_ : future.completed = true ∨ future.waiterId = none) :
    ∀ core ∈ cores, ¬ future.Registered core := by
  rintro core - ⟨pending, registered, -⟩
  rcases none_ with completed | unregistered
  · rw [completed] at pending
    cases pending
  · rw [unregistered] at registered
    cases registered

end Linked

/-! ## The operations -/

/-- The books of a system are right, and its queue and futures belong together. -/
structure Accounted (config : BufferedByteBudgetConfig) (sys : System) : Prop where
  books : Books config sys.budget (holdings sys)
  linked : Linked config sys.budget.closed (sys.budget.waiters.map Waiter.core) sys.futures

/-- No request is for zero bytes, no future is polled after it has completed, and a future that
registers gets an id that no waiting future has. -/
def Guarded (sys : System) : Action → Prop
  | .tryAcquire _ bytes | .acquire _ _ bytes => bytes ≠ 0
  | .poll key _ _ => ∀ future, sys.futures[key]? = some future →
      future.completed = false ∧ (future.waiterId = none →
        ∀ (k : Nat) (f : ByteBudgetAcquire), sys.futures[k]? = some f → f.completed = false →
          f.waiterId ≠ some sys.budget.nextWaiterId)
  | _ => True

section Operations

variable {config : BufferedByteBudgetConfig} {sys : System}

theorem Books.reject {state : BudgetState} {held : Holdings} (books : Books config state held) :
    Books config state.reject held :=
  books.congr rfl rfl

theorem permitHoldings_append (a b : List OwnedBytePermit) :
    permitHoldings (a ++ b) = permitHoldings a + permitHoldings b := by
  simp [permitHoldings]

theorem permitHoldings_singleton (permit : OwnedBytePermit) :
    permitHoldings [permit] = {(permit.tenant, permit.bytes.toNat)} :=
  rfl

theorem holdings_admit (permits : List OwnedBytePermit) (permit : OwnedBytePermit)
    (granted : Holdings) :
    (permit.tenant, permit.bytes.toNat) ::ₘ (permitHoldings permits + granted) =
      permitHoldings (permits ++ [permit]) + granted := by
  rw [permitHoldings_append, permitHoldings_singleton, ← Multiset.singleton_add,
    add_comm (permitHoldings permits) {_}, add_assoc]

variable {future : ByteBudgetAcquire} {key : Nat}

section

variable (accounted : Accounted config sys)

include accounted

/-- The grant loop succeeds and keeps the accounts. -/
theorem regrants : ∃ grants final, grantWaiters config sys.budget = .ok (grants, final) ∧
    Accounted config { sys with budget := final } := by
  obtain ⟨grants, final, made, books, cores, shut, -⟩ :=
    grantWaiters_ok accounted.books accounted.linked.core_sizes
  refine ⟨grants, final, made, books, ?_⟩
  change Linked config final.closed (final.waiters.map core) sys.futures
  rw [cores, shut]
  exact accounted.linked

theorem tryAcquire_ok (tenant : TenantId) (size : bytes ≠ 0) :
    ∃ outcome, perform config sys (.tryAcquire tenant bytes) = .ok outcome ∧
      Accounted config outcome.after := by
  have refused : Accounted config
      { sys with budget := sys.budget.reject, permits := sys.permits ++ [] } := by
    rw [append_nil]
    exact ⟨accounted.books.reject, accounted.linked⟩
  rw [perform, tryAcquire]
  split
  · exact ⟨_, rfl, refused⟩
  · split
    · exact ⟨_, rfl, refused⟩
    · split
      · exact ⟨_, rfl, refused⟩
      · next admitted =>
        simp only [Bool.or_eq_true, Bool.not_eq_true', not_or, Bool.not_eq_false] at admitted
        obtain ⟨after, charged, books⟩ := accounted.books.charge admitted.2 size
        obtain ⟨queue, closed, -⟩ := charge_queue charged
        rw [charged]
        refine ⟨_, rfl, ?_, ?_⟩
        · rw [holdings, holdings_admit sys.permits ⟨tenant, bytes⟩, ← queue] at books
          exact books
        · change Linked config after.closed (after.waiters.map core) sys.futures
          rw [queue, closed]
          exact accounted.linked

theorem dropPermit_ok (index : Nat) :
    ∃ outcome, perform config sys (.dropPermit index) = .ok outcome ∧
      Accounted config outcome.after := by
  rw [perform]
  cases found : sys.permits[index]? with
  | none => exact ⟨_, rfl, accounted⟩
  | some permit =>
    have books := accounted.books
    obtain ⟨bound, here⟩ := List.getElem?_eq_some_iff.mp found
    have held : permitHoldings sys.permits =
        (permit.tenant, permit.bytes.toNat) ::ₘ permitHoldings (sys.permits.eraseIdx index) := by
      have perm := (getElem_cons_eraseIdx_perm bound).map
        fun permit : OwnedBytePermit => (permit.tenant, permit.bytes.toNat)
      rw [here] at perm
      exact (Multiset.coe_eq_coe.mpr perm).symm
    rw [holdings, held, Multiset.cons_add] at books
    obtain ⟨mid, given, kept, queue, closed, -⟩ :=
      books.uncharge (Multiset.mem_cons_self _ _)
        "byte permit released more global bytes than charged"
        "byte permit tenant accounting disappeared"
        "byte permit released more tenant bytes than charged"
    rw [Multiset.erase_cons_head, ← queue] at kept
    have linked := accounted.linked
    rw [← queue, ← closed] at linked
    obtain ⟨grants, final, made, next⟩ :=
      regrants (⟨kept, linked⟩ : Accounted config ⟨mid, sys.permits.eraseIdx index, sys.futures⟩)
    dsimp only
    rw [release, uncharge, given, ok_bind, made, ok_bind]
    exact ⟨_, rfl, next⟩

theorem close_ok :
    ∃ outcome, perform config sys .close = .ok outcome ∧ Accounted config outcome.after := by
  have books : Books config { sys.budget with closed := true, waiters := [] } (holdings sys) :=
    accounted.books.congr rfl rfl
  obtain ⟨final, folded, last, queue, shut, -⟩ := foldlM_revoke_ok sys.budget.waiters books
  rw [perform, close, folded, ok_bind, ok_bind]
  refine ⟨_, rfl, ?_, ?_⟩
  · change Books config final (permitHoldings sys.permits + grantedHoldings final.waiters)
    rw [queue]
    exact (add_zero (permitHoldings sys.permits)).symm ▸ last
  · change Linked config final.closed (final.waiters.map core) sys.futures
    rw [queue, shut]
    exact accounted.linked.close

theorem takeWaiter_registered {waiter : Waiter} {rest : List Waiter}
    (open_ : sys.budget.closed = false) (found : sys.futures[key]? = some future)
    (pending : future.completed = false) (registered : future.waiterId = some id)
    (taken : takeWaiter id sys.budget.waiters = some (waiter, rest)) :
    future.Registered waiter.core := by
  obtain ⟨same, a, b, queue, -⟩ := takeWaiter_eq_some taken
  have member := accounted.linked.queued open_ key future id found pending registered
  obtain ⟨mine, stored, core⟩ := mem_map.mp member
  have ids := accounted.linked.ids
  rw [List.map_map] at ids
  have equal : mine = waiter := by
    refine inj_on_of_nodup_map ids stored (by simp [queue]) ?_
    change mine.core.1 = waiter.core.1
    rw [core]
    exact same.symm
  rw [← equal, core]
  exact ⟨pending, registered, rfl, rfl⟩

theorem dropAcquire_ok (key : Nat) :
    ∃ outcome, perform config sys (.dropAcquire key) = .ok outcome ∧
      Accounted config outcome.after := by
  rw [perform]
  cases found : sys.futures[key]? with
  | none => exact ⟨_, rfl, accounted⟩
  | some future =>
    have others := get_erase_others sys.futures key
    have done : ∀ f, (sys.futures.erase key)[key]? = some f →
        f.completed = true ∧ f.bytes = future.bytes ∧ f.waiterId = future.waiterId := of_get_erase
    have idle : (∀ core ∈ sys.budget.waiters.map Waiter.core, ¬ future.Registered core) →
        Accounted config { sys with futures := sys.futures.erase key } := fun free =>
      ⟨accounted.books, accounted.linked.retire found others done (.refl _) free
        fun core member => .inl member⟩
    dsimp only
    rw [dropAcquire]
    cases completed : future.completed with
    | true => exact ⟨_, rfl, idle (Linked.unregistered (.inl completed))⟩
    | false =>
      rw [if_neg (by simp)]
      cases waiterId : future.waiterId with
      | none => exact ⟨_, rfl, idle (Linked.unregistered (.inr waiterId))⟩
      | some id =>
        rw [Option.bind_some]
        cases taken : takeWaiter id sys.budget.waiters with
        | none =>
          refine ⟨_, rfl, idle fun core member mine => ?_⟩
          obtain ⟨waiter, stored, rfl⟩ := mem_map.mp member
          obtain ⟨_, _, some_⟩ := takeWaiter_isSome stored
            (Option.some.inj (mine.2.1.symm.trans waiterId))
          rw [taken] at some_
          cases some_
        | some pair =>
          obtain ⟨waiter, rest⟩ := pair
          have open_ : sys.budget.closed = false := by
            by_contra shut
            have empty := accounted.linked.emptied (by simpa using shut)
            rw [map_eq_nil_iff] at empty
            rw [empty] at taken
            cases taken
          have mine := takeWaiter_registered accounted open_ found completed waiterId taken
          obtain ⟨-, a, b, queue, rfl⟩ := takeWaiter_eq_some taken
          have linked := accounted.linked
          have books := accounted.books
          rw [queue, map_append, map_cons] at linked
          rw [holdings, queue] at books
          obtain ⟨gone, kept⟩ := linked.removed mine
          obtain ⟨mid, given, balanced, midQueue, midClosed, -⟩ := unchargeGranted_ok books
          rw [← midQueue] at balanced
          have retired := linked.retire found others done
            ((sublist_cons_self _ _).append_left _) gone kept
          rw [← map_append, ← midQueue, ← midClosed] at retired
          obtain ⟨grants, final, made, next⟩ := regrants (⟨balanced, retired⟩ :
            Accounted config ⟨mid, sys.permits, sys.futures.erase key⟩)
          dsimp only
          rw [given, ok_bind, made, ok_bind]
          exact ⟨_, rfl, next⟩

end

/-- A future that completes without a waiter. -/
theorem Linked.complete {closed : Bool} {cores : List Core}
    {futures : BTreeMap Nat ByteBudgetAcquire} (linked : Linked config closed cores futures)
    (found : futures[key]? = some future) {cores' : List Core} (shorter : cores'.Sublist cores)
    (gone : ∀ core ∈ cores', ¬ future.Registered core)
    (kept : ∀ core ∈ cores, core ∈ cores' ∨ future.Registered core) :
    Linked config closed cores' (futures.insert key { future with completed := true }) := by
  exact linked.retire found (get_insert_others _ _ _) (of_get_insert ⟨rfl, rfl, rfl⟩) shorter gone
    kept

theorem pollClosed_ok (accounted : Accounted config sys) (shut : sys.budget.closed = true)
    (found : sys.futures[key]? = some future) :
    ∃ polled, pollClosed sys.budget future = .ok polled ∧
      Accounted config ⟨polled.state, sys.permits ++ polled.result.permit,
        sys.futures.insert key polled.future⟩ := by
  have empty := accounted.linked.emptied shut
  have missing : future.waiterId.bind (takeWaiter · sys.budget.reject.waiters) = none := by
    change future.waiterId.bind (takeWaiter · sys.budget.waiters) = none
    rw [map_eq_nil_iff] at empty
    rw [empty]
    cases future.waiterId <;> rfl
  rw [pollClosed]
  dsimp only
  rw [missing]
  refine ⟨_, rfl, ?_, ?_⟩
  · change Books config sys.budget.reject (permitHoldings (sys.permits ++ []) + _)
    rw [append_nil]
    exact accounted.books.reject
  · refine accounted.linked.complete found (.refl _) ?_ fun core member => .inl member
    change ∀ core ∈ sys.budget.waiters.map Waiter.core, _
    rw [empty]
    simp

section

variable (accounted : Accounted config sys) {key : Nat} {future : ByteBudgetAcquire} (waker : Waker)
  (now : Nat) (open_ : sys.budget.closed = false) (found : sys.futures[key]? = some future)
  (pending : future.completed = false)

include accounted waker now open_ found pending

theorem pollRegistered_ok (registered : future.waiterId = some id) :
    ∃ polled, pollRegistered config sys.budget future id waker now = .ok polled ∧
      Accounted config ⟨polled.state, sys.permits ++ polled.result.permit,
        sys.futures.insert key polled.future⟩ := by
  have member := accounted.linked.queued open_ key future id found pending registered
  obtain ⟨mine, stored, core⟩ := mem_map.mp member
  obtain ⟨waiter, rest, taken⟩ := takeWaiter_isSome stored (congrArg Prod.fst core)
  have owner := takeWaiter_registered accounted open_ found pending registered taken
  obtain ⟨-, a, b, queue, rfl⟩ := takeWaiter_eq_some taken
  rw [pollRegistered, taken]
  change ∃ polled, (if waiter.granted then _ else _) = _ ∧ _
  by_cases granted : waiter.granted = true
  · rw [if_pos granted]
    have linked := accounted.linked
    have books := accounted.books
    rw [queue, map_append, map_cons] at linked
    rw [holdings, queue, grantedHoldings_append, grantedHoldings_cons, if_pos granted,
      Multiset.add_cons, Multiset.add_cons, ← grantedHoldings_append] at books
    -- The bytes of the waiter become those of the permit.
    have moved : (waiter.tenant, waiter.bytes.toNat) = (future.tenant, future.bytes.toNat) := by
      rw [owner.2.2.1, owner.2.2.2]
      rfl
    rw [moved, holdings_admit sys.permits ⟨future.tenant, future.bytes⟩] at books
    obtain ⟨gone, kept⟩ := linked.removed owner
    have completed := linked.complete found ((sublist_cons_self _ _).append_left _) gone kept
    let mid := recordWait { sys.budget with waiters := a ++ b } future.registeredAt now
    have midQueue : mid.waiters = a ++ b := (recordWait_queue ..).1
    have midClosed : mid.closed = sys.budget.closed := (recordWait_queue ..).2.1
    have balanced : Books config mid _ :=
      books.congr (recordWait_queue ..).2.2.1 (recordWait_queue ..).2.2.2
    rw [← midQueue] at balanced
    rw [← map_append, ← midQueue, ← midClosed] at completed
    obtain ⟨grants, final, made, next⟩ := regrants (⟨balanced, completed⟩ : Accounted config ⟨mid,
      sys.permits ++ [⟨future.tenant, future.bytes⟩],
      sys.futures.insert key { future with completed := true }⟩)
    refine ⟨⟨.ready (.ok ⟨future.tenant, future.bytes⟩), grants,
      { future with completed := true }, final⟩, ?_, next⟩
    change (grantWaiters config mid >>= _) = _
    rw [made]
    rfl
  · rw [if_neg granted]
    refine ⟨_, rfl, ?_, ?_⟩
    · change Books config { sys.budget with waiters := setWaker id waker sys.budget.waiters }
        (permitHoldings (sys.permits ++ []) +
          grantedHoldings (setWaker id waker sys.budget.waiters))
      rw [append_nil, grantedHoldings_setWaker]
      exact accounted.books.congr rfl rfl
    · change Linked config sys.budget.closed ((setWaker id waker sys.budget.waiters).map _)
        (sys.futures.insert key future)
      rw [core_setWaker, insert_same _ found]
      exact accounted.linked

theorem pollFirst_ok (unregistered : future.waiterId = none)
    (valid : validateRequest config future.bytes = .ok ())
    (fresh : ∀ (k : Nat) (f : ByteBudgetAcquire), sys.futures[k]? = some f →
      f.completed = false → f.waiterId ≠ some sys.budget.nextWaiterId) :
    ∃ polled, pollFirst config sys.budget future waker now = .ok polled ∧
      Accounted config ⟨polled.state, sys.permits ++ polled.result.permit,
        sys.futures.insert key polled.future⟩ := by
  rw [pollFirst]
  split
  · next admitted =>
    rw [Bool.and_eq_true] at admitted
    obtain ⟨after, charged, books⟩ :=
      accounted.books.charge admitted.2 (accounted.linked.sizes key future found)
    obtain ⟨queue, closed, -⟩ := charge_queue charged
    rw [charged]
    refine ⟨_, rfl, ?_, ?_⟩
    · rw [holdings, holdings_admit sys.permits ⟨future.tenant, future.bytes⟩, ← queue] at books
      exact books
    · change Linked config after.closed (after.waiters.map core) _
      rw [queue, closed]
      exact accounted.linked.complete found (.refl _) (Linked.unregistered (.inr unregistered))
        fun core member => .inl member
  · let id := sys.budget.nextWaiterId
    let mid : BudgetState := { sys.budget with
      nextWaiterId := sys.budget.nextWaiterId + 1
      waitCount := sys.budget.waitCount + 1
      waiters := sys.budget.waiters ++
        [⟨id, future.tenant, future.bytes, false, 0, some waker⟩] }
    have linked := accounted.linked
    rw [open_] at linked
    have registered := linked.register found pending unregistered valid now fresh
    have granted : grantedHoldings mid.waiters = grantedHoldings sys.budget.waiters := by
      rw [grantedHoldings_append, grantedHoldings_cons]
      exact add_zero _
    have balanced : Books config mid (permitHoldings sys.permits + grantedHoldings mid.waiters) :=
      by
      rw [granted]
      exact accounted.books.congr rfl rfl
    have midCores : mid.waiters.map core =
        sys.budget.waiters.map core ++ [(id, future.tenant, future.bytes)] :=
      map_append
    rw [← midCores, ← open_] at registered
    rw [← append_nil sys.permits] at balanced
    obtain ⟨grants, final, made, next⟩ := regrants (⟨balanced, registered⟩ : Accounted config ⟨mid,
      sys.permits ++ [],
      sys.futures.insert key { future with waiterId := some id, registeredAt := some now }⟩)
    refine ⟨⟨.pending, grants, { future with waiterId := some id, registeredAt := some now },
      final⟩, ?_, next⟩
    change (grantWaiters config mid >>= _) = _
    rw [made]
    rfl

end

theorem poll_ok (accounted : Accounted config sys) (key : Nat) (waker : Waker) (now : Nat)
    (guards : Guarded sys (.poll key waker now)) :
    ∃ outcome, perform config sys (.poll key waker now) = .ok outcome ∧
      Accounted config outcome.after := by
  rw [perform]
  cases found : sys.futures[key]? with
  | none => exact ⟨_, rfl, accounted⟩
  | some future =>
    obtain ⟨pending, fresh⟩ := guards future found
    suffices polls : ∃ polled, poll config sys.budget future waker now = .ok polled ∧
        Accounted config ⟨polled.state, sys.permits ++ polled.result.permit,
          sys.futures.insert key polled.future⟩ by
      obtain ⟨polled, returned, next⟩ := polls
      dsimp only
      rw [returned]
      exact ⟨_, rfl, next⟩
    rw [poll]
    cases valid : validateRequest config future.bytes with
    | error error =>
      -- A request that is too large never registers.
      have unregistered : future.waiterId = none := by
        rw [Option.eq_none_iff_forall_ne_some]
        intro id registered
        rw [accounted.linked.valid key future id found registered] at valid
        cases valid
      refine ⟨_, rfl, ?_, ?_⟩
      · change Books config sys.budget.reject (permitHoldings (sys.permits ++ []) + _)
        rw [append_nil]
        exact accounted.books.reject
      · exact accounted.linked.complete found (.refl _) (Linked.unregistered (.inr unregistered))
          fun core member => .inl member
    | ok _ =>
      dsimp only
      split
      · next shut => exact pollClosed_ok accounted shut found
      · next notShut =>
        have open_ : sys.budget.closed = false := by simpa using notShut
        cases waiterId : future.waiterId with
        | some id => exact pollRegistered_ok accounted waker now open_ found pending waiterId
        | none =>
          exact pollFirst_ok accounted waker now open_ found pending waiterId valid (fresh waiterId)

theorem acquire_ok (accounted : Accounted config sys) (key : Nat) (tenant : TenantId)
    (size : bytes ≠ 0) :
    ∃ outcome, perform config sys (.acquire key tenant bytes) = .ok outcome ∧
      Accounted config outcome.after := by
  rw [perform]
  cases found : sys.futures[key]? with
  | some future => exact ⟨_, rfl, accounted⟩
  | none => exact ⟨_, rfl, accounted.books, accounted.linked.create found tenant size⟩

/-- A guarded action never panics and keeps the accounts. -/
theorem perform_ok (accounted : Accounted config sys) {action : Action}
    (guards : Guarded sys action) :
    ∃ outcome, perform config sys action = .ok outcome ∧ Accounted config outcome.after := by
  cases action with
  | tryAcquire tenant bytes => exact tryAcquire_ok accounted tenant guards
  | acquire key tenant bytes => exact acquire_ok accounted key tenant guards
  | poll key waker now => exact poll_ok accounted key waker now guards
  | dropAcquire key => exact dropAcquire_ok accounted key
  | dropPermit index => exact dropPermit_ok accounted index
  | close => exact close_ok accounted

end Operations

/-! ## Runs -/

def GuardedStep (config : BufferedByteBudgetConfig) (before : System) (action : Action)
    (after : System) : Prop :=
  Guarded before action ∧ Step config before action after

theorem accounted_initial (config : BufferedByteBudgetConfig) : Accounted config .initial where
  books := {
    charged := rfl
    tenants := fun _ => by simp [tenantBytes, initial, BudgetState.new, holdings,
      permitHoldings, grantedHoldings]
    entries := fun _ => by simp [initial, BudgetState.new]
    positive := by
      intro holding member
      exact absurd member (Multiset.notMem_zero _)
    within := UInt64.le_of_lt config.global_positive
    shares := fun _ _ _ => by
      simp [tenantBytes, initial, BudgetState.new] }
  linked := {
    ids := nodup_nil
    owned := by
      intro core member
      cases member
    queued := by simp [initial]
    apart := by simp [initial]
    emptied := fun _ => rfl
    sizes := by simp [initial]
    valid := by simp [initial] }

/-- Charged bytes are exactly what permits and granted waiters hold, within the limits, and no
guarded action can fail. -/
structure Conserved (config : BufferedByteBudgetConfig) (sys : System) : Prop where
  charged : sys.budget.charged.toNat = total (holdings sys)
  tenants : ∀ tenant, (tenantBytes sys.budget tenant).toNat = share (holdings sys) tenant
  within : sys.budget.charged ≤ config.globalLimit
  shares : ∀ limit, config.tenantLimit = some limit →
    ∀ tenant, tenantBytes sys.budget tenant ≤ limit
  succeeds : ∀ action, Guarded sys action → ∃ outcome, perform config sys action = .ok outcome
  released : sys.permits = [] → (∀ key : Nat, sys.futures[key]? = none) →
    sys.budget.charged = 0 ∧ ∀ tenant : TenantId, sys.budget.tenantCharged[tenant]? = none

variable {config : BufferedByteBudgetConfig}

theorem Accounted.conserved {sys : System} (accounted : Accounted config sys) :
    Conserved config sys where
  charged := accounted.books.charged
  tenants := accounted.books.tenants
  within := accounted.books.within
  shares := accounted.books.shares
  succeeds action guards := by
    obtain ⟨outcome, performed, -⟩ := perform_ok accounted guards
    exact ⟨outcome, performed⟩
  released permits futures := by
    have waiters : sys.budget.waiters = [] := by
      rw [← map_eq_nil_iff, eq_nil_iff_forall_not_mem]
      intro core member
      obtain ⟨key, future, found, -⟩ := accounted.linked.owned core member
      rw [futures key] at found
      cases found
    have none_ : holdings sys = 0 := by
      rw [holdings, permits, waiters]
      rfl
    have books := accounted.books
    rw [none_] at books
    refine ⟨UInt64.toNat_inj.mp books.charged, fun tenant => ?_⟩
    cases entry : sys.budget.tenantCharged[tenant]? with
    | none => rfl
    | some bytes =>
      have zero := books.tenants tenant
      rw [tenantBytes, entry, Option.getD_some, share_zero] at zero
      have : bytes = 0 := UInt64.toNat_inj.mp zero
      exact absurd (this ▸ entry) (books.entries tenant)

/-- Every state of a guarded run is conserved. -/
theorem guardedRun_conserved {config : BufferedByteBudgetConfig} {actions : List Action}
    {sys : System} (run : Run (GuardedStep config) .initial actions sys) :
    Conserved config sys := by
  have accounted : Accounted config sys := by
    refine run.invariant (accounted_initial config) ?_
    rintro before action after accounted ⟨guards, reply, grants, performed⟩
    obtain ⟨outcome, again, next⟩ := perform_ok accounted guards
    rw [performed, Except.ok.injEq] at again
    subst again
    exact next
  exact accounted.conserved

/-- The guards, evaluated over the futures that exist. -/
def guarded (sys : System) : Action → Bool
  | .tryAcquire _ bytes | .acquire _ _ bytes => bytes != 0
  | .poll key _ _ => (sys.futures[key]?).all fun future =>
      !future.completed && (future.waiterId.isSome || sys.futures.toList.all fun (_, f) =>
        f.completed || f.waiterId != some sys.budget.nextWaiterId)
  | _ => true

theorem guarded_eq_true {sys : System} {action : Action} (holds : guarded sys action = true) :
    Guarded sys action := by
  cases action with
  | tryAcquire tenant bytes => simpa [guarded, Guarded] using holds
  | acquire key tenant bytes => simpa [guarded, Guarded] using holds
  | poll key waker now =>
    intro future found
    simp only [guarded, found, Option.all_some, Bool.and_eq_true, Bool.not_eq_true',
      Bool.or_eq_true, all_eq_true] at holds
    refine ⟨holds.1, fun unregistered k f stored pending => ?_⟩
    have fresh := (holds.2.resolve_left (by simp [unregistered])) (k, f)
      ((mem_toList_iff ..).mpr stored)
    simpa [pending] using fresh
  | dropAcquire key => trivial
  | dropPermit index => trivial
  | close => trivial

def nextGuarded (config : BufferedByteBudgetConfig) (sys : System) (action : Action) :
    Option System :=
  if guarded sys action then nextSystem config sys action else none

theorem nextGuarded_step (before : System) (action : Action) (after : System)
    (taken : nextGuarded config before action = some after) :
    GuardedStep config before action after := by
  rw [nextGuarded] at taken
  split at taken
  · next holds => exact ⟨guarded_eq_true holds, nextSystem_step before action after taken⟩
  · cases taken

def sampleConfig : BufferedByteBudgetConfig := ⟨10, some 6, by decide, by simp⟩

/-- A permit is held while two futures wait; one is dropped, the other consumes its grant. -/
def sampleActions : List Action :=
  [.tryAcquire "a" 6, .acquire 0 "b" 5, .acquire 1 "a" 3, .poll 0 1 0, .poll 1 2 0,
    .dropPermit 0, .poll 1 2 5, .dropAcquire 0]

theorem guardedRun_conserved_sample :
    ∃ sys, Run (GuardedStep sampleConfig) .initial sampleActions sys ∧
      sys.permits = [⟨"a", 3⟩] ∧ Conserved sampleConfig sys := by
  have returned : (runAll (nextGuarded sampleConfig) .initial sampleActions).map
      System.permits = some [⟨"a", 3⟩] := by
    decide +kernel
  obtain ⟨sys, performed, permits⟩ := Option.map_eq_some_iff.mp returned
  have run := runAll_run nextGuarded_step performed
  exact ⟨sys, run, permits, guardedRun_conserved run⟩

/-- Of two permits for zero bytes of one tenant, the first that is dropped removes the entry of
the tenant, and dropping the second one panics. -/
theorem zero_permit_drop_panics :
    ∃ sys, Run (Step sampleConfig) .initial
        [.tryAcquire "a" 0, .tryAcquire "a" 0, .dropPermit 0] sys ∧
      perform sampleConfig sys (.dropPermit 0) =
        .error "byte permit tenant accounting disappeared" := by
  have computed : ((runAll (nextSystem sampleConfig) .initial
      [.tryAcquire "a" 0, .tryAcquire "a" 0, .dropPermit 0]).map fun sys =>
        (perform sampleConfig sys (.dropPermit 0)).map fun _ => ()) =
      some (.error "byte permit tenant accounting disappeared") := by
    decide +kernel
  obtain ⟨sys, reached, failed⟩ := Option.map_eq_some_iff.mp computed
  exact ⟨sys, runAll_run nextSystem_step reached, map_eq_error.mp failed⟩

end ByteAdmission
