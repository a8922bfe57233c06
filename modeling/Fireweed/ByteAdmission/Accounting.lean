import Fireweed.ByteAdmission.Granting
import Fireweed.Ledger
import Fireweed.Runs

/-!
# Exact accounting of charged bytes

What is charged is a ledger: one holding for each live permit and for each waiter
that was granted and not yet consumed. The two counters are the total and the
shares of that ledger as long as no request is for zero bytes: an entry of the
tenant map is removed at zero, so a holding of zero bytes may find no entry when
it is given back.
-/

namespace ByteAdmission

open BTree Checked Ledger List Runs Std

abbrev Holdings := Multiset (TenantId × Nat)

def permitHoldings (permits : List OwnedBytePermit) : Holdings :=
  (permits.map fun permit => (permit.tenant, permit.bytes.toNat) : List (TenantId × Nat))

def grantedHoldings (waiters : List Waiter) : Holdings :=
  ((waiters.filter (·.granted)).map fun waiter => (waiter.tenant, waiter.bytes.toNat) :
    List (TenantId × Nat))

/-- What live permits and granted waiters hold. -/
def holdings (sys : System) : Holdings :=
  permitHoldings sys.permits + grantedHoldings sys.budget.waiters

def tenantBytes (state : BudgetState) (tenant : TenantId) : UInt64 :=
  (state.tenantCharged[tenant]?).getD 0

/-- The counters of a budget state are those of a ledger within the limits. -/
structure Books (config : BufferedByteBudgetConfig) (state : BudgetState) (held : Holdings) :
    Prop where
  charged : state.charged.toNat = total held
  tenants : ∀ tenant, (tenantBytes state tenant).toNat = share held tenant
  entries : ∀ tenant : TenantId, state.tenantCharged[tenant]? ≠ some 0
  positive : ∀ holding ∈ held, 0 < holding.2
  within : state.charged ≤ config.globalLimit
  shares : ∀ limit, config.tenantLimit = some limit → ∀ tenant, tenantBytes state tenant ≤ limit

variable {config : BufferedByteBudgetConfig}

/-- The books read the two counters only. -/
theorem Books.congr {state after : BudgetState} {held : Holdings}
    (books : Books config state held) (charged : after.charged = state.charged)
    (tenants : after.tenantCharged = state.tenantCharged) : Books config after held where
  charged := by rw [charged, books.charged]
  tenants tenant := by rw [tenantBytes, tenants, ← tenantBytes, books.tenants]
  entries tenant := by
    rw [tenants]
    exact books.entries tenant
  positive := books.positive
  within := by
    rw [charged]
    exact books.within
  shares limit configured tenant := by
    rw [tenantBytes, tenants]
    exact books.shares limit configured tenant

theorem toNat_pos {bytes : UInt64} (positive : bytes ≠ 0) : 0 < bytes.toNat := by
  have : bytes.toNat ≠ 0 := fun zero => positive (UInt64.toNat_inj.mp zero)
  omega

theorem fits_eq_true {state : BudgetState} {tenant : TenantId} {bytes : UInt64}
    (fit : fits config state tenant bytes = true) :
    (∃ sum, checkedAdd state.charged bytes = some sum ∧ sum ≤ config.globalLimit) ∧
      ∀ limit, config.tenantLimit = some limit →
        ∃ sum, checkedAdd (tenantBytes state tenant) bytes = some sum ∧ sum ≤ limit := by
  rw [fits, Bool.and_eq_true, fitsGlobal, fitsTenant] at fit
  constructor
  · simpa [Option.any_eq_true] using fit.1
  · intro limit configured
    rw [configured] at fit
    simpa [Option.any_eq_true, tenantBytes] using fit.2

namespace Books

variable {config : BufferedByteBudgetConfig} {state : BudgetState} {held : Holdings}
  {tenant : TenantId} {bytes : UInt64}

theorem charge (books : Books config state held) (fit : fits config state tenant bytes = true)
    (nonzero : bytes ≠ 0) :
    ∃ after, ByteAdmission.charge state tenant bytes = .ok after ∧
      Books config after ((tenant, bytes.toNat) ::ₘ held) := by
  obtain ⟨⟨sum, added, within⟩, limits⟩ := fits_eq_true fit
  obtain ⟨bound, sumValue⟩ := checkedAdd_eq_some.mp added
  have part : (tenantBytes state tenant).toNat ≤ state.charged.toNat := by
    rw [books.tenants, books.charged]
    exact share_le_total held tenant
  have room : (tenantBytes state tenant).toNat + bytes.toNat < 2 ^ 64 := by omega
  let tenantSum := tenantBytes state tenant + bytes
  have tenantAdded : checkedAdd (tenantBytes state tenant) bytes = some tenantSum := if_pos room
  have tenantValue := (checkedAdd_eq_some.mp tenantAdded).2
  let after : BudgetState := { state with
    charged := sum
    peak := max state.peak sum
    tenantCharged := state.tenantCharged.insert tenant tenantSum }
  have bytesAfter : ∀ other, tenantBytes after other =
      if tenant = other then tenantSum else tenantBytes state other := by
    intro other
    rw [tenantBytes, get_insert]
    split <;> rfl
  refine ⟨after, ?_, ?_, ?_, ?_, ?_, within, ?_⟩
  · rw [ByteAdmission.charge, added, ← tenantBytes, tenantAdded]
    rfl
  · rw [total_cons, sumValue, books.charged, Nat.add_comm]
  · intro other
    rw [bytesAfter, share_cons]
    split
    · next same =>
      rw [tenantValue, books.tenants, same, Nat.add_comm]
    · rw [books.tenants, Nat.zero_add]
  · intro other
    rw [get_insert]
    split
    · rw [Ne, Option.some.injEq, ← UInt64.toNat_inj, tenantValue]
      have := toNat_pos nonzero
      change ¬ _ = 0
      omega
    · exact books.entries other
  · intro holding member
    rcases Multiset.mem_cons.mp member with rfl | member
    · exact toNat_pos nonzero
    · exact books.positive holding member
  · intro limit configured other
    rw [bytesAfter]
    split
    · obtain ⟨sum', added', below⟩ := limits limit configured
      rw [tenantAdded, Option.some.injEq] at added'
      exact added' ▸ below
    · exact books.shares limit configured other

/-- What is held can be given back. -/
theorem uncharge (books : Books config state held) (member : (tenant, bytes.toNat) ∈ held)
    (above missing below : String) :
    ∃ after, unchargeWith state tenant bytes above missing below = .ok after ∧
      Books config after (held.erase (tenant, bytes.toNat)) ∧ after.waiters = state.waiters ∧
        after.closed = state.closed ∧ after.nextWaiterId = state.nextWaiterId := by
  have positive : 0 < bytes.toNat := books.positive _ member
  have totals := total_erase member
  have shares := share_erase tenant member
  rw [if_pos rfl, ← books.tenants] at shares
  rw [← books.charged] at totals
  -- The entry exists, because its share is at least the bytes given back.
  obtain ⟨entry, found⟩ : ∃ entry, state.tenantCharged[tenant]? = some entry := by
    rw [← Option.ne_none_iff_exists']
    intro none_
    rw [tenantBytes, none_] at shares
    change _ = 0 at shares
    omega
  have value : tenantBytes state tenant = entry := by rw [tenantBytes, found, Option.getD_some]
  rw [value] at shares
  have enough : bytes ≤ state.charged := by
    rw [UInt64.le_iff_toNat_le]
    omega
  have enoughShare : bytes ≤ entry := by
    rw [UInt64.le_iff_toNat_le]
    omega
  let rest := entry - bytes
  have subtracted : checkedSub state.charged bytes = some (state.charged - bytes) := if_pos enough
  have restFound : checkedSub entry bytes = some rest := if_pos enoughShare
  have restValue := checkedSub_eq_some.mp restFound
  have chargedValue := checkedSub_eq_some.mp subtracted
  let after : BudgetState := { state with
    charged := state.charged - bytes
    tenantCharged :=
      if rest = 0 then state.tenantCharged.erase tenant
      else state.tenantCharged.insert tenant rest }
  have entryAfter : ∀ other, after.tenantCharged[other]? =
      if tenant = other then (if rest = 0 then none else some rest)
      else state.tenantCharged[other]? := by
    intro other
    change (if rest = 0 then _ else _)[other]? = _
    split
    · rw [get_erase]
    · rw [get_insert]
  have bytesAfter : ∀ other, tenantBytes after other =
      if tenant = other then rest else tenantBytes state other := by
    intro other
    rw [tenantBytes, entryAfter]
    split
    · split
      · next zero => rw [zero, Option.getD_none]
      · rfl
    · rfl
  refine ⟨after, ?_, ⟨?_, ?_, ?_, ?_, ?_, ?_⟩, rfl, rfl, rfl⟩
  · rw [unchargeWith, subtracted, found]
    change (expectSome (checkedSub entry bytes) below >>= _) = _
    rw [restFound]
    rfl
  · change (state.charged - bytes).toNat = _
    omega
  · intro other
    have other_ := share_erase other member
    rw [bytesAfter]
    split
    · next same =>
      subst same
      omega
    · next different =>
      rw [if_neg different, Nat.zero_add] at other_
      rw [other_, books.tenants]
  · intro other
    rw [entryAfter]
    split
    · split
      · simp
      · next nonzero => exact fun zero => nonzero (Option.some.inj zero)
    · exact books.entries other
  · exact fun holding kept => books.positive holding (Multiset.mem_of_mem_erase kept)
  · have := UInt64.le_iff_toNat_le.mp books.within
    rw [UInt64.le_iff_toNat_le]
    change (state.charged - bytes).toNat ≤ _
    omega
  · intro limit configured other
    have before := UInt64.le_iff_toNat_le.mp (books.shares limit configured other)
    rw [bytesAfter]
    split
    · next same =>
      subst same
      rw [value] at before
      rw [UInt64.le_iff_toNat_le]
      omega
    · exact UInt64.le_iff_toNat_le.mpr before

end Books

/-! ## Grants and removals -/

theorem grantedHoldings_append (a b : List Waiter) :
    grantedHoldings (a ++ b) = grantedHoldings a + grantedHoldings b := by
  simp [grantedHoldings]

theorem grantedHoldings_cons (waiter : Waiter) (waiters : List Waiter) :
    grantedHoldings (waiter :: waiters) =
      if waiter.granted then (waiter.tenant, waiter.bytes.toNat) ::ₘ grantedHoldings waiters
      else grantedHoldings waiters := by
  rw [grantedHoldings, filter_cons]
  split <;> rfl

theorem grantedHoldings_congr {a b : List Waiter}
    (same : a.map (fun w => (w.core, w.granted)) = b.map (fun w => (w.core, w.granted))) :
    grantedHoldings a = grantedHoldings b := by
  induction a generalizing b with
  | nil =>
    rw [map_nil, eq_comm, map_eq_nil_iff] at same
    rw [same]
  | cons first others ih =>
    cases b with
    | nil => cases same
    | cons first' others' =>
      simp only [map_cons, cons.injEq, Prod.mk.injEq, Waiter.core] at same
      rw [grantedHoldings_cons, grantedHoldings_cons, ih same.2, same.1.2, same.1.1.2.1,
        same.1.1.2.2]

theorem grantedHoldings_bypass (waiters : List Waiter) :
    grantedHoldings (waiters.map Waiter.bypass) = grantedHoldings waiters := by
  apply grantedHoldings_congr
  rw [List.map_map]
  exact List.map_congr_left fun waiter _ => by
    simp [core_bypass, granted_bypass]

theorem grantedHoldings_setWaker (id : UInt64) (waker : Waker) (waiters : List Waiter) :
    grantedHoldings (setWaker id waker waiters) = grantedHoldings waiters := by
  induction waiters with
  | nil => rfl
  | cons first others ih =>
    rw [setWaker]
    split
    · rw [grantedHoldings_cons, grantedHoldings_cons]
    · rw [grantedHoldings_cons, grantedHoldings_cons, ih]

theorem grantedHoldings_queue {grant : Grant} (chosen : Chosen config grant) :
    grantedHoldings grant.queue =
      (grant.waiter.tenant, grant.waiter.bytes.toNat) ::ₘ grantedHoldings grant.before.waiters := by
  rw [chosen.queue, Grant.queue, grantedHoldings_append, grantedHoldings_append,
    grantedHoldings_bypass, grantedHoldings_cons, grantedHoldings_cons, chosen.waiting]
  simp [Waiter.grant]

section Granting

variable {config : BufferedByteBudgetConfig} {state : BudgetState} {base : Holdings}

/-- The grant loop never fails and keeps the books. -/
theorem grantRounds_ok (rounds : Nat)
    (books : Books config state (base + grantedHoldings state.waiters))
    (sizes : ∀ core ∈ state.waiters.map Waiter.core, core.2.2 ≠ 0) :
    ∃ grants final, grantRounds config rounds state = .ok (grants, final) ∧
      Books config final (base + grantedHoldings final.waiters) := by
  induction rounds generalizing state with
  | zero => exact ⟨[], state, rfl, books⟩
  | succ rounds ih =>
    rw [grantRounds]
    cases choice : nextGrant config state with
    | none => exact ⟨[], state, rfl, books⟩
    | some grant =>
      obtain ⟨rfl, chosen⟩ := nextGrant_eq_some choice
      have size : grant.waiter.bytes ≠ 0 :=
        sizes grant.waiter.core (mem_map_of_mem (by simp [chosen.queue]))
      have moved : Books config { grant.before with waiters := grant.queue }
          (base + grantedHoldings grant.before.waiters) :=
        books.congr rfl rfl
      obtain ⟨next, applied, kept⟩ := moved.charge chosen.fits size
      have queue := (apply_queue (show grant.apply = .ok next from applied)).1
      rw [← Multiset.add_cons, ← grantedHoldings_queue chosen, ← queue] at kept
      obtain ⟨grants, final, made, last⟩ := ih kept (by
        rw [queue, core_queue chosen]
        exact sizes)
      refine ⟨grant :: grants, final, ?_, last⟩
      dsimp only
      rw [Grant.apply, ← Grant.queue, applied, ok_bind, made]
      rfl

theorem grantWaiters_ok (books : Books config state (base + grantedHoldings state.waiters))
    (sizes : ∀ core ∈ state.waiters.map Waiter.core, core.2.2 ≠ 0) :
    ∃ grants final, grantWaiters config state = .ok (grants, final) ∧
      Books config final (base + grantedHoldings final.waiters) ∧
      final.waiters.map Waiter.core = state.waiters.map Waiter.core ∧
      final.closed = state.closed ∧ final.nextWaiterId = state.nextWaiterId := by
  obtain ⟨grants, final, made, kept⟩ := grantRounds_ok state.waiters.length books sizes
  exact ⟨grants, final, made, kept, (grantWaiters_rounds made).core⟩

/-- A waiter taken out of the queue is uncharged if it was granted. -/
theorem unchargeGranted_ok {a b : List Waiter} {waiter : Waiter}
    (books : Books config state (base + grantedHoldings (a ++ waiter :: b))) :
    ∃ after, unchargeGranted { state with waiters := a ++ b } waiter = .ok after ∧
      Books config after (base + grantedHoldings (a ++ b)) ∧ after.waiters = a ++ b ∧
        after.closed = state.closed ∧ after.nextWaiterId = state.nextWaiterId := by
  rw [grantedHoldings_append, grantedHoldings_cons] at books
  rw [unchargeGranted, grantedHoldings_append]
  split at books
  · next granted =>
    rw [if_pos granted]
    rw [Multiset.add_cons, Multiset.add_cons] at books
    have moved : Books config { state with waiters := a ++ b } _ :=
      books.congr rfl rfl
    obtain ⟨after, taken, kept, queue, closed, next⟩ :=
      moved.uncharge (Multiset.mem_cons_self _ _) _ _ _
    rw [Multiset.erase_cons_head] at kept
    exact ⟨after, taken, kept, queue, closed, next⟩
  · next waiting =>
    rw [if_neg waiting]
    exact ⟨_, rfl, books.congr rfl rfl, rfl, rfl, rfl⟩

/-- Closing takes back what every granted waiter held. -/
theorem foldlM_revoke_ok (waiters : List Waiter)
    (books : Books config state (base + grantedHoldings waiters)) :
    ∃ final, waiters.foldlM revoke state = .ok final ∧ Books config final base ∧
      final.waiters = state.waiters ∧ final.closed = state.closed ∧
        final.nextWaiterId = state.nextWaiterId := by
  induction waiters generalizing state with
  | nil =>
    have none_ : grantedHoldings [] = 0 := rfl
    rw [none_, add_zero] at books
    exact ⟨state, rfl, books, rfl, rfl, rfl⟩
  | cons waiter waiters ih =>
    rw [grantedHoldings_cons] at books
    rw [foldlM_cons, revoke]
    split at books
    · next granted =>
      rw [if_pos granted]
      rw [Multiset.add_cons] at books
      obtain ⟨next, taken, kept, queue, closed, id⟩ :=
        books.uncharge (Multiset.mem_cons_self _ _) "granted waiter exceeded global byte charge"
          "granted waiter tenant charge disappeared" "granted waiter exceeded tenant byte charge"
      rw [Multiset.erase_cons_head] at kept
      obtain ⟨final, folded, last, queue', closed', id'⟩ := ih kept
      rw [taken, ok_bind]
      exact ⟨final, folded, last, queue'.trans queue, closed'.trans closed, id'.trans id⟩
    · next waiting =>
      rw [if_neg waiting, ok_bind]
      exact ih books

end Granting

end ByteAdmission
