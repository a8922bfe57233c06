import Fireweed.Coordination

/-!
# Slot admission

A counting semaphore with a bounded line of waiters: a caller takes a free slot,
or waits until a slot is passed on to it, its deadline is over or the admission is
closed. A newcomer is admitted by the number of active slots alone. Every
operation runs under one mutex, so it is a function on the state; beside its result
it returns what happened to the line.
-/

namespace SlotAdmission

open BTree Coordination Std
open ByteAdmission (Panic Waker expectSome)

/-- There is one line. -/
abbrev Event := WaitingLines.Event Unit UInt64

abbrev AdmissionWaiterStatus := WaitingLines.Status

structure AdmissionWaiter where
  status : AdmissionWaiterStatus
  waker : Option Waker
deriving DecidableEq

structure SlotAdmissionState where
  closed : Bool
  active : Nat
  queued : Nat
  nextWaiterId : UInt64
  order : List UInt64
  waiters : BTreeMap UInt64 AdmissionWaiter

/-- What an admission is created with. -/
structure Limits where
  resource : String
  activeLimit : Nat
  queuedLimit : Nat
  maxWait : Nat
  active_positive : 0 < activeLimit

structure SlotAcquire where
  /-- The future still refers to the admission. -/
  inner : Bool
  waiterId : Option UInt64
  registeredAt : Option Nat
  completed : Bool
deriving DecidableEq

def SlotAdmissionState.new : SlotAdmissionState := ⟨false, 0, 0, 0, [], ∅⟩

/-- The future of a request; it registers on its first poll. -/
def acquire : SlotAcquire := ⟨true, none, none, false⟩

def closeWaiter (waiter : AdmissionWaiter) : AdmissionWaiter :=
  if waiter.status = .waiting then ⟨.closed, none⟩ else waiter

def close (state : SlotAdmissionState) : SlotAdmissionState :=
  { state with
    closed := true
    queued := 0
    order := []
    waiters := state.waiters.map fun _ waiter => closeWaiter waiter }

/-- What a release or a drop does to the line, whom it wakes, and the state after it. -/
structure Released where
  events : List Event
  waker : Option Waker
  state : SlotAdmissionState

/-- Give up a slot and pass it on to the first waiter. -/
def releaseSlotLocked (state : SlotAdmissionState) : Except Panic Released :=
  match state.order with
  | [] => .ok ⟨[], none, { state with active := state.active - 1 }⟩
  | waiterId :: order => do
    let waiter ← expectSome state.waiters[waiterId]? "queued slot waiter missing"
    .ok {
      events := [.granted () waiterId]
      waker := waiter.waker
      state := { state with
        active := state.active - 1 + 1
        queued := state.queued - 1
        order := order
        waiters := state.waiters.insert waiterId ⟨.granted, none⟩ } }

/-- The result of a poll; a permit stands for its slot. -/
inductive Poll where
  | pending
  | ready (result : Except CoordinationError Unit)

/-- What a poll returns and leaves behind. -/
structure Polled where
  result : Poll
  events : List Event
  future : SlotAcquire
  state : SlotAdmissionState

def SlotAcquire.complete (future : SlotAcquire) : SlotAcquire :=
  { future with completed := true, inner := false }

/-- Take a waiter out of the line. -/
def unqueue (state : SlotAdmissionState) (waiterId : UInt64) : List Event × SlotAdmissionState :=
  if waiterId ∈ state.order then
    ([.left () waiterId],
      { state with order := state.order.erase waiterId, queued := state.queued - 1 })
  else ([], state)

def pollRegistered (limits : Limits) (state : SlotAdmissionState) (future : SlotAcquire)
    (waiterId : UInt64) (waker : Waker) (now : Nat) : Except Panic Polled := do
  let timedOut := future.registeredAt.any fun start => decide (limits.maxWait ≤ now - start)
  let waiter ← expectSome state.waiters[waiterId]? "registered slot waiter missing"
  let removed := { state with waiters := state.waiters.erase waiterId }
  if waiter.status = .waiting ∧ timedOut = true then
    let left := unqueue removed waiterId
    .ok ⟨.ready (.error (.deadline limits.resource)), left.1,
      { future.complete with waiterId := none }, left.2⟩
  else match waiter.status with
    | .waiting => .ok ⟨.pending, [], future, { state with
        waiters := state.waiters.insert waiterId { waiter with waker := some waker } }⟩
    | .granted => .ok ⟨.ready (.ok ()), [], future.complete, removed⟩
    | .closed => .ok ⟨.ready (.error (.closed limits.resource)), [], future.complete, removed⟩

def pollFirst (limits : Limits) (state : SlotAdmissionState) (future : SlotAcquire) (waker : Waker)
    (now : Nat) : Polled :=
  if state.closed then ⟨.ready (.error (.closed limits.resource)), [], future.complete, state⟩
  else if state.active < limits.activeLimit then
    ⟨.ready (.ok ()), [.entered ()], future.complete, { state with active := state.active + 1 }⟩
  else if limits.queuedLimit ≤ state.queued then
    ⟨.ready (.error (.capacity limits.resource)), [], future.complete, state⟩
  else
    let id := state.nextWaiterId
    ⟨.pending, [.joined () id], { future with waiterId := some id, registeredAt := some now },
      { state with
        nextWaiterId := state.nextWaiterId + 1
        order := state.order ++ [id]
        waiters := state.waiters.insert id ⟨.waiting, some waker⟩
        queued := state.queued + 1 }⟩

def poll (limits : Limits) (state : SlotAdmissionState) (future : SlotAcquire) (waker : Waker)
    (now : Nat) : Except Panic Polled := do
  let _ ← expectSome (if future.inner then some () else none) "slot admission missing"
  match future.waiterId with
  | some waiterId => pollRegistered limits state future waiterId waker now
  | none => .ok (pollFirst limits state future waker now)

def dropAcquire (state : SlotAdmissionState) (future : SlotAcquire) : Except Panic Released :=
  if !future.inner then .ok ⟨[], none, state⟩
  else match future.waiterId with
    | none => .ok ⟨[], none, state⟩
    | some waiterId => match state.waiters[waiterId]? with
      | none => .ok ⟨[], none, state⟩
      | some waiter =>
        let state := { state with waiters := state.waiters.erase waiterId }
        match waiter.status with
        | .waiting =>
          let left := unqueue state waiterId
          .ok ⟨left.1, none, left.2⟩
        | .granted => releaseSlotLocked state
        | .closed => .ok ⟨[], none, state⟩

/-! ## The admission with its permits and futures -/

structure System where
  slots : SlotAdmissionState
  /-- The number of live permits. -/
  permits : Nat
  futures : BTreeMap Nat SlotAcquire
  /-- What happened to the line, in order. -/
  log : List Event

def System.initial : System := ⟨.new, 0, ∅, []⟩

inductive Action where
  | acquire (name : Nat)
  | poll (name : Nat) (waker : Waker) (now : Nat)
  | dropAcquire (name : Nat)
  | dropPermit
  | close

/-- What an action returns to its caller. -/
inductive Reply where
  | done
  | polled (result : Poll)
  /-- The panic of a poll after completion, before any lock is taken. -/
  | polledAfterCompletion

def Poll.permits : Poll → Nat
  | .ready (.ok _) => 1
  | .ready (.error _) | .pending => 0

/-- An action on a permit or future that does not exist changes nothing. -/
def perform (limits : Limits) (sys : System) : Action → Except Panic (Reply × System)
  | .acquire name =>
    match sys.futures[name]? with
    | some _ => .ok (.done, sys)
    | none => .ok (.done, { sys with futures := sys.futures.insert name acquire })
  | .poll name waker now =>
    match sys.futures[name]? with
    | none => .ok (.done, sys)
    | some future =>
      if future.completed then .ok (.polledAfterCompletion, sys)
      else do
        let polled ← poll limits sys.slots future waker now
        .ok (.polled polled.result, {
          slots := polled.state
          permits := sys.permits + polled.result.permits
          futures := sys.futures.insert name polled.future
          log := sys.log ++ polled.events })
  | .dropAcquire name =>
    match sys.futures[name]? with
    | none => .ok (.done, sys)
    | some future => do
      let released ← dropAcquire sys.slots future
      .ok (.done, { sys with
        slots := released.state
        futures := sys.futures.erase name
        log := sys.log ++ released.events })
  | .dropPermit =>
    match sys.permits with
    | 0 => .ok (.done, sys)
    | permits + 1 => do
      let released ← releaseSlotLocked sys.slots
      .ok (.done, { sys with
        slots := released.state
        permits := permits
        log := sys.log ++ released.events })
  | .close => .ok (.done, { sys with
      slots := close sys.slots
      log := sys.log ++ [.dispersed] })

/-- A step of a run: an action whose locked sections do not panic. -/
def Step (limits : Limits) : System → Action → System → Prop := Runs.Performs (perform limits)

end SlotAdmission
