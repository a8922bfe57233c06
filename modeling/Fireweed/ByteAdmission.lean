import Fireweed.Checked

/-!
# Byte admission

A node-wide byte budget with optional tenant shares. Permits and granted waiters
hold charged bytes; a waiter is registered by the first poll of its future, is
granted by whichever operation frees capacity, and is consumed by a later poll.
Every operation runs under one mutex, so it is a function on the budget state; a
failed `expect` is an error of that function. Beside the wakers, the grant loop
returns the grants it made, in order.
-/

namespace ByteAdmission

open BTree Checked Std

abbrev TenantId := String

/-- The task a waiting future wakes. -/
abbrev Waker := Nat

/-- The message of a failed `expect`. -/
abbrev Panic := String

def checkedAdd (a b : UInt64) : Option UInt64 :=
  if a.toNat + b.toNat < 2 ^ 64 then some (a + b) else none

def checkedSub (a b : UInt64) : Option UInt64 :=
  if b ≤ a then some (a - b) else none

def expectSome {α : Type} (value : Option α) (message : String) : Except Panic α :=
  match value with
  | some a => .ok a
  | none => .error message

inductive ByteBudgetScope where
  | global
  | tenant
deriving DecidableEq

inductive ByteAdmissionError where
  | closed
  | backpressure
  | oversize (requested limit : UInt64) (scope : ByteBudgetScope)
deriving DecidableEq

/-- Validated settings. -/
structure BufferedByteBudgetConfig where
  globalLimit : UInt64
  tenantLimit : Option UInt64
  global_positive : 0 < globalLimit
  tenant_within : ∀ limit, tenantLimit = some limit → 0 < limit ∧ limit ≤ globalLimit

structure Waiter where
  id : UInt64
  tenant : TenantId
  bytes : UInt64
  granted : Bool
  bypasses : UInt8
  waker : Option Waker
deriving DecidableEq

structure BudgetState where
  closed : Bool
  nextWaiterId : UInt64
  charged : UInt64
  peak : UInt64
  tenantCharged : BTreeMap TenantId UInt64
  waiters : List Waiter
  waitCount : UInt64
  rejectionCount : UInt64
  totalWaitNanos : Nat
  maxWaitNanos : Nat

def BudgetState.new : BudgetState := ⟨false, 0, 0, 0, ∅, [], 0, 0, 0, 0⟩

/-- `rejection_count += 1`. -/
def BudgetState.reject (state : BudgetState) : BudgetState :=
  { state with rejectionCount := state.rejectionCount + 1 }

def validateRequest (config : BufferedByteBudgetConfig) (bytes : UInt64) :
    Except ByteAdmissionError Unit := do
  rejectIf (config.globalLimit < bytes) (.oversize bytes config.globalLimit .global)
  match config.tenantLimit with
  | some limit => rejectIf (limit < bytes) (.oversize bytes limit .tenant)
  | none => .ok ()

section Accounting

variable (config : BufferedByteBudgetConfig) (state : BudgetState) (tenant : TenantId)
  (bytes : UInt64)

def fitsGlobal : Bool := (checkedAdd state.charged bytes).any (· ≤ config.globalLimit)

def fitsTenant : Bool :=
  config.tenantLimit.all fun limit =>
    (checkedAdd ((state.tenantCharged[tenant]?).getD 0) bytes).any (· ≤ limit)

def fits : Bool := fitsGlobal config state bytes && fitsTenant config state tenant bytes

def charge : Except Panic BudgetState := do
  let charged ← expectSome (checkedAdd state.charged bytes)
    "validated global byte charge overflowed"
  let tenantCharge ← expectSome (checkedAdd ((state.tenantCharged[tenant]?).getD 0) bytes)
    "validated tenant byte charge overflowed"
  .ok { state with
    charged
    peak := max state.peak charged
    tenantCharged := state.tenantCharged.insert tenant tenantCharge }

/-- Take bytes back; an entry at zero is removed. -/
def unchargeWith (above missing below : String) : Except Panic BudgetState := do
  let charged ← expectSome (checkedSub state.charged bytes) above
  let tenantBytes ← expectSome state.tenantCharged[tenant]? missing
  let rest ← expectSome (checkedSub tenantBytes bytes) below
  .ok { state with
    charged
    tenantCharged :=
      if rest = 0 then state.tenantCharged.erase tenant
      else state.tenantCharged.insert tenant rest }

def uncharge : Except Panic BudgetState :=
  unchargeWith state tenant bytes "byte permit released more global bytes than charged"
    "byte permit tenant accounting disappeared"
    "byte permit released more tenant bytes than charged"

end Accounting

/-! ## Granting -/

def maxBypasses : UInt8 := 8

/-- The saturating increment of `u8`. -/
def saturatingSucc (n : UInt8) : UInt8 := if n = 255 then 255 else n + 1

def Waiter.bypass (waiter : Waiter) : Waiter :=
  if waiter.granted then waiter else { waiter with bypasses := saturatingSucc waiter.bypasses }

def Waiter.grant (waiter : Waiter) : Waiter := { waiter with granted := true, waker := none }

/-- An aged request that lacks global capacity reserves it. -/
def agedGlobal (config : BufferedByteBudgetConfig) (state : BudgetState) : Bool :=
  state.waiters.any fun waiter =>
    !waiter.granted && decide (maxBypasses ≤ waiter.bypasses) &&
      !fitsGlobal config state waiter.bytes

/-- A waiter that fits, behind no older waiter of its tenant. -/
def grantable (config : BufferedByteBudgetConfig) (state : BudgetState) (older : List Waiter)
    (waiter : Waiter) : Bool :=
  !waiter.granted && fits config state waiter.tenant waiter.bytes &&
    !older.any fun older => !older.granted && older.tenant == waiter.tenant

/-- The first grantable waiter, with the waiters before and behind it. -/
def firstGrantable (config : BufferedByteBudgetConfig) (state : BudgetState) :
    List Waiter → List Waiter → Option (List Waiter × Waiter × List Waiter)
  | _, [] => none
  | older, waiter :: younger =>
    if grantable config state older waiter then some (older, waiter, younger)
    else firstGrantable config state (older ++ [waiter]) younger

/-- One grant: the state it was decided in, and the queue around the granted waiter. -/
structure Grant where
  before : BudgetState
  older : List Waiter
  waiter : Waiter
  younger : List Waiter

/-- The choice of one round of the loop. -/
def nextGrant (config : BufferedByteBudgetConfig) (state : BudgetState) : Option Grant :=
  if agedGlobal config state then none
  else (firstGrantable config state [] state.waiters).map fun (older, waiter, younger) =>
    ⟨state, older, waiter, younger⟩

/-- The waiters passed over age, the chosen one is granted and charged. -/
def Grant.apply (grant : Grant) : Except Panic BudgetState :=
  charge { grant.before with
    waiters := grant.older.map Waiter.bypass ++ grant.waiter.grant :: grant.younger }
    grant.waiter.tenant grant.waiter.bytes

/-- The loop of `grant_waiters`; every round grants one more waiter. -/
def grantRounds (config : BufferedByteBudgetConfig) :
    Nat → BudgetState → Except Panic (List Grant × BudgetState)
  | 0, state => .ok ([], state)
  | rounds + 1, state =>
    match nextGrant config state with
    | none => .ok ([], state)
    | some grant => do
      let next ← grant.apply
      let (grants, final) ← grantRounds config rounds next
      .ok (grant :: grants, final)

def grantWaiters (config : BufferedByteBudgetConfig) (state : BudgetState) :
    Except Panic (List Grant × BudgetState) :=
  grantRounds config state.waiters.length state

/-! ## Operations -/

structure OwnedBytePermit where
  tenant : TenantId
  bytes : UInt64
deriving DecidableEq

structure ByteBudgetAcquire where
  tenant : TenantId
  bytes : UInt64
  waiterId : Option UInt64
  completed : Bool
  registeredAt : Option Nat
deriving DecidableEq

abbrev Admission := Except ByteAdmissionError OwnedBytePermit

section Operations

variable (config : BufferedByteBudgetConfig)

/-- The future of a request; it registers on its first poll. -/
def acquire (tenant : TenantId) (bytes : UInt64) : ByteBudgetAcquire :=
  ⟨tenant, bytes, none, false, none⟩

def tryAcquire (state : BudgetState) (tenant : TenantId) (bytes : UInt64) :
    Except Panic (Admission × BudgetState) :=
  match validateRequest config bytes with
  | .error error => .ok (.error error, state.reject)
  | .ok () =>
    if state.closed then .ok (.error .closed, state.reject)
    else if !state.waiters.isEmpty || !fits config state tenant bytes then
      .ok (.error .backpressure, state.reject)
    else do
      let state ← charge state tenant bytes
      .ok (.ok ⟨tenant, bytes⟩, state)

/-- What `close` takes back for one waiter. -/
def revoke (state : BudgetState) (waiter : Waiter) : Except Panic BudgetState :=
  if waiter.granted then
    unchargeWith state waiter.tenant waiter.bytes "granted waiter exceeded global byte charge"
      "granted waiter tenant charge disappeared" "granted waiter exceeded tenant byte charge"
  else .ok state

def close (state : BudgetState) : Except Panic (List Waker × BudgetState) := do
  let final ← state.waiters.foldlM revoke { state with closed := true, waiters := [] }
  .ok (state.waiters.filterMap (·.waker), final)

/-- Dropping a permit. -/
def release (state : BudgetState) (tenant : TenantId) (bytes : UInt64) :
    Except Panic (List Grant × BudgetState) := do
  let state ← uncharge state tenant bytes
  grantWaiters config state

/-- The first waiter with an id, and the queue without it. -/
def takeWaiter (id : UInt64) : List Waiter → Option (Waiter × List Waiter)
  | [] => none
  | waiter :: rest =>
    if waiter.id = id then some (waiter, rest)
    else (takeWaiter id rest).map fun (found, rest) => (found, waiter :: rest)

def setWaker (id : UInt64) (waker : Waker) : List Waiter → List Waiter
  | [] => []
  | waiter :: rest =>
    if waiter.id = id then { waiter with waker := some waker } :: rest
    else waiter :: setWaker id waker rest

def unchargeGranted (state : BudgetState) (waiter : Waiter) : Except Panic BudgetState :=
  if waiter.granted then uncharge state waiter.tenant waiter.bytes else .ok state

inductive Poll where
  | pending
  | ready (result : Admission)
deriving DecidableEq

/-- What a poll returns and leaves behind. -/
structure Polled where
  result : Poll
  grants : List Grant
  future : ByteBudgetAcquire
  state : BudgetState

def pollClosed (state : BudgetState) (future : ByteBudgetAcquire) : Except Panic Polled := do
  let state := state.reject
  let state ← match future.waiterId.bind (takeWaiter · state.waiters) with
    | some (waiter, rest) => unchargeGranted { state with waiters := rest } waiter
    | none => .ok state
  .ok ⟨.ready (.error .closed), [], { future with completed := true }, state⟩

/-- Add the time since registration, in nanoseconds of `u128`. -/
def recordWait (state : BudgetState) (registeredAt : Option Nat) (now : Nat) : BudgetState :=
  match registeredAt with
  | some started => { state with
      totalWaitNanos := min (state.totalWaitNanos + (now - started)) (2 ^ 128 - 1)
      maxWaitNanos := max state.maxWaitNanos (now - started) }
  | none => state

def pollRegistered (state : BudgetState) (future : ByteBudgetAcquire) (id : UInt64)
    (waker : Waker) (now : Nat) : Except Panic Polled := do
  let (waiter, rest) ← expectSome (takeWaiter id state.waiters)
    "registered byte waiter disappeared"
  if waiter.granted then
    let state := recordWait { state with waiters := rest } future.registeredAt now
    let (grants, state) ← grantWaiters config state
    .ok ⟨.ready (.ok ⟨future.tenant, future.bytes⟩), grants, { future with completed := true },
      state⟩
  else
    .ok ⟨.pending, [], future, { state with waiters := setWaker id waker state.waiters }⟩

def pollFirst (state : BudgetState) (future : ByteBudgetAcquire) (waker : Waker) (now : Nat) :
    Except Panic Polled :=
  if state.waiters.isEmpty && fits config state future.tenant future.bytes then do
    let state ← charge state future.tenant future.bytes
    .ok ⟨.ready (.ok ⟨future.tenant, future.bytes⟩), [], { future with completed := true }, state⟩
  else do
    let id := state.nextWaiterId
    let state := { state with
      nextWaiterId := state.nextWaiterId + 1
      waitCount := state.waitCount + 1
      waiters := state.waiters ++ [⟨id, future.tenant, future.bytes, false, 0, some waker⟩] }
    let (grants, state) ← grantWaiters config state
    .ok ⟨.pending, grants, { future with waiterId := some id, registeredAt := some now }, state⟩

def poll (state : BudgetState) (future : ByteBudgetAcquire) (waker : Waker) (now : Nat) :
    Except Panic Polled :=
  match validateRequest config future.bytes with
  | .error error =>
    .ok ⟨.ready (.error error), [], { future with completed := true }, state.reject⟩
  | .ok () =>
    if state.closed then pollClosed state future
    else match future.waiterId with
      | some id => pollRegistered config state future id waker now
      | none => pollFirst config state future waker now

def dropAcquire (state : BudgetState) (future : ByteBudgetAcquire) :
    Except Panic (List Grant × BudgetState) :=
  if future.completed then .ok ([], state)
  else match future.waiterId.bind (takeWaiter · state.waiters) with
    | some (waiter, rest) => do
      let state ← unchargeGranted { state with waiters := rest } waiter
      grantWaiters config state
    | none => .ok ([], state)

end Operations

/-! ## The budget with its permits and futures -/

structure System where
  budget : BudgetState
  permits : List OwnedBytePermit
  futures : BTreeMap Nat ByteBudgetAcquire

def System.initial : System := ⟨.new, [], ∅⟩

inductive Action where
  | tryAcquire (tenant : TenantId) (bytes : UInt64)
  | acquire (key : Nat) (tenant : TenantId) (bytes : UInt64)
  | poll (key : Nat) (waker : Waker) (now : Nat)
  | dropAcquire (key : Nat)
  | dropPermit (index : Nat)
  | close
deriving DecidableEq

/-- What an action returns to its caller. -/
inductive Reply where
  | done
  | admission (result : Admission)
  | polled (result : Poll)
deriving DecidableEq

/-- What an action returned, the grants it made, and the system after it. -/
structure Outcome where
  reply : Reply
  grants : List Grant
  after : System

/-- The permit a result carries. -/
def Admission.permit : Admission → List OwnedBytePermit
  | .ok permit => [permit]
  | .error _ => []

def Poll.permit : Poll → List OwnedBytePermit
  | .ready result => Admission.permit result
  | .pending => []

/-- An action on a permit or future that does not exist changes nothing. -/
def perform (config : BufferedByteBudgetConfig) (sys : System) :
    Action → Except Panic Outcome
  | .tryAcquire tenant bytes => do
    let (result, budget) ← tryAcquire config sys.budget tenant bytes
    .ok ⟨.admission result, [], { sys with
      budget, permits := sys.permits ++ Admission.permit result }⟩
  | .acquire key tenant bytes =>
    match sys.futures[key]? with
    | some _ => .ok ⟨.done, [], sys⟩
    | none => .ok ⟨.done, [], { sys with
        futures := sys.futures.insert key (acquire tenant bytes) }⟩
  | .poll key waker now =>
    match sys.futures[key]? with
    | some future => do
      let polled ← poll config sys.budget future waker now
      .ok ⟨.polled polled.result, polled.grants, {
        budget := polled.state
        permits := sys.permits ++ polled.result.permit
        futures := sys.futures.insert key polled.future }⟩
    | none => .ok ⟨.done, [], sys⟩
  | .dropAcquire key =>
    match sys.futures[key]? with
    | some future => do
      let (grants, budget) ← dropAcquire config sys.budget future
      .ok ⟨.done, grants, { sys with budget, futures := sys.futures.erase key }⟩
    | none => .ok ⟨.done, [], sys⟩
  | .dropPermit index =>
    match sys.permits[index]? with
    | some permit => do
      let (grants, budget) ← release config sys.budget permit.tenant permit.bytes
      .ok ⟨.done, grants, { sys with budget, permits := sys.permits.eraseIdx index }⟩
    | none => .ok ⟨.done, [], sys⟩
  | .close => do
    let (_, budget) ← close sys.budget
    .ok ⟨.done, [], { sys with budget }⟩

/-- A step of a run: an action that does not panic. -/
def Step (config : BufferedByteBudgetConfig) (before : System) (action : Action) (after : System) :
    Prop :=
  ∃ reply grants, perform config before action = .ok ⟨reply, grants, after⟩

/-- The step of an action, if it does not panic. -/
def nextSystem (config : BufferedByteBudgetConfig) (before : System) (action : Action) :
    Option System :=
  (perform config before action).toOption.map Outcome.after

theorem nextSystem_step {config : BufferedByteBudgetConfig} (before : System) (action : Action)
    (after : System) (taken : nextSystem config before action = some after) :
    Step config before action after := by
  obtain ⟨outcome, here, rfl⟩ := Option.map_eq_some_iff.mp taken
  exact ⟨outcome.reply, outcome.grants, toOption_eq_some.mp here⟩

end ByteAdmission
