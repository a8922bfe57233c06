import Fireweed.ByteAdmission
import Fireweed.WaitingLines

/-!
# The keyed queue gate

One request at a time works on a key; the others wait in a bounded line. An entry
of the gate stands for the holder of a key: a permit, or a waiter that was granted
and not yet polled. Dropping a holder passes the key on to the first waiter and
removes the entry if there is none. Every operation runs under one mutex, so it is
a function on the gate state; beside its result it returns what happened to the
lines of waiters.
-/

namespace QueueGate

open BTree Std
open ByteAdmission (Panic Waker expectSome)

abbrev Event (K : Type) := WaitingLines.Event K UInt64

inductive QueueGateError where
  | closed
  | queueFull
  | perKeyFull
deriving DecidableEq

abbrev WaiterStatus := WaitingLines.Status

structure Waiter where
  status : WaiterStatus
  waker : Option Waker
deriving DecidableEq

structure QueueEntry where
  waiters : List UInt64
deriving DecidableEq

structure GateState (K : Type) [Ord K] where
  closed : Bool
  queued : Nat
  nextWaiterId : UInt64
  entries : BTreeMap K QueueEntry
  waiters : BTreeMap UInt64 Waiter

structure Limits where
  maxQueued : Nat
  maxPerKey : Nat
  perKey_positive : 0 < maxPerKey

structure QueueGatePermit (K : Type) where
  key : K
deriving DecidableEq

structure QueueGateAcquire (K : Type) where
  key : K
  waiterId : Option UInt64
  acquired : Bool
  completed : Bool
deriving DecidableEq

variable {K : Type} [Ord K] [TransOrd K]

def GateState.new : GateState K := ⟨false, 0, 0, ∅, ∅⟩

/-- The future of a request; it registers on its first poll. -/
def acquire (key : K) : QueueGateAcquire K := ⟨key, none, false, false⟩

def closeWaiter (waiters : BTreeMap UInt64 Waiter) (id : UInt64) : BTreeMap UInt64 Waiter :=
  match waiters[id]? with
  | some _ => waiters.insert id ⟨.closed, none⟩
  | none => waiters

def close (state : GateState K) : List Waker × GateState K :=
  let waiterIds := state.entries.toList.flatMap fun entry => entry.2.waiters
  (waiterIds.filterMap fun id => state.waiters[id]?.bind Waiter.waker,
    { state with
      closed := true
      queued := 0
      entries := state.entries.map fun _ _ => ⟨[]⟩
      waiters := waiterIds.foldl closeWaiter state.waiters })

/-- What a release or a drop does to the lines, whom it wakes, and the state after it. -/
structure Released (K : Type) [Ord K] where
  events : List (Event K)
  waker : Option Waker
  state : GateState K

/-- Pass a key on to the first waiter of its line. -/
def releaseKeyLocked (state : GateState K) (key : K) : Except Panic (Released K) :=
  match state.entries[key]? with
  | some ⟨waiterId :: rest⟩ => do
    let waiter ← expectSome state.waiters[waiterId]? "queued waiter state missing"
    .ok {
      events := [.granted key waiterId]
      waker := waiter.waker
      state := { state with
        queued := state.queued - 1
        entries := state.entries.insert key ⟨rest⟩
        waiters := state.waiters.insert waiterId ⟨.granted, none⟩ } }
  | _ => .ok ⟨[], none, { state with entries := state.entries.erase key }⟩

inductive Poll (K : Type) where
  | pending
  | ready (result : Except QueueGateError (QueueGatePermit K))

/-- What a poll returns and leaves behind. -/
structure Polled (K : Type) [Ord K] where
  result : Poll K
  events : List (Event K)
  future : QueueGateAcquire K
  state : GateState K

def QueueGateAcquire.complete (future : QueueGateAcquire K) : QueueGateAcquire K :=
  { future with completed := true }

/-- The future that has returned its permit. -/
def QueueGateAcquire.admitted (future : QueueGateAcquire K) : QueueGateAcquire K :=
  { future with acquired := true, completed := true }

def pollRegistered (state : GateState K) (future : QueueGateAcquire K) (waiterId : UInt64)
    (waker : Waker) : Except Panic (Polled K) := do
  let waiter ← expectSome state.waiters[waiterId]? "registered queue waiter missing"
  match waiter.status with
  | .waiting => .ok ⟨.pending, [], future, { state with
      waiters := state.waiters.insert waiterId { waiter with waker := some waker } }⟩
  | .granted => .ok ⟨.ready (.ok ⟨future.key⟩), [], future.admitted,
      { state with waiters := state.waiters.erase waiterId }⟩
  | .closed => .ok ⟨.ready (.error .closed), [], future.complete,
      { state with waiters := state.waiters.erase waiterId }⟩

/-- The requests a key retains: its holder and its line. -/
def retainedForKey (state : GateState K) (key : K) : Nat :=
  (state.entries[key]?).elim 0 fun entry => 1 + entry.waiters.length

def pollFirst (limits : Limits) (state : GateState K) (future : QueueGateAcquire K)
    (waker : Waker) : Except Panic (Polled K) :=
  if state.closed then .ok ⟨.ready (.error .closed), [], future.complete, state⟩
  else if !state.entries.contains future.key then
    .ok ⟨.ready (.ok ⟨future.key⟩), [.entered future.key], future.admitted,
      { state with entries := state.entries.insert future.key ⟨[]⟩ }⟩
  else if limits.maxPerKey ≤ retainedForKey state future.key then
    .ok ⟨.ready (.error .perKeyFull), [], future.complete, state⟩
  else if limits.maxQueued ≤ state.queued then
    .ok ⟨.ready (.error .queueFull), [], future.complete, state⟩
  else do
    let id := state.nextWaiterId
    let entry ← expectSome state.entries[future.key]? "held queue entry missing"
    .ok ⟨.pending, [.joined future.key id], { future with waiterId := some id }, { state with
      nextWaiterId := state.nextWaiterId + 1
      waiters := state.waiters.insert id ⟨.waiting, some waker⟩
      entries := state.entries.insert future.key ⟨entry.waiters ++ [id]⟩
      queued := state.queued + 1 }⟩

def poll (limits : Limits) (state : GateState K) (future : QueueGateAcquire K) (waker : Waker) :
    Except Panic (Polled K) :=
  match future.waiterId with
  | some waiterId => pollRegistered state future waiterId waker
  | none => pollFirst limits state future waker

/-- Take a waiter out of the line of its key. -/
def cancelWaiting (state : GateState K) (key : K) (waiterId : UInt64) : Released K :=
  match state.entries[key]? with
  | some entry =>
    if waiterId ∈ entry.waiters then
      ⟨[.left key waiterId], none, { state with
        entries := state.entries.insert key ⟨entry.waiters.erase waiterId⟩
        queued := state.queued - 1 }⟩
    else ⟨[], none, state⟩
  | none => ⟨[], none, state⟩

def dropAcquire (state : GateState K) (future : QueueGateAcquire K) :
    Except Panic (Released K) :=
  if future.acquired || future.completed && future.waiterId.isNone then .ok ⟨[], none, state⟩
  else match future.waiterId with
    | none => .ok ⟨[], none, state⟩
    | some waiterId => match state.waiters[waiterId]? with
      | none => .ok ⟨[], none, state⟩
      | some waiter =>
        let state := { state with waiters := state.waiters.erase waiterId }
        match waiter.status with
        | .waiting => .ok (cancelWaiting state future.key waiterId)
        | .granted => releaseKeyLocked state future.key
        | .closed => .ok ⟨[], none, state⟩

/-! ## The gate with its permits and futures -/

structure System (K : Type) [Ord K] where
  gate : GateState K
  permits : List (QueueGatePermit K)
  futures : BTreeMap Nat (QueueGateAcquire K)
  /-- What happened to the lines, in order. -/
  log : List (Event K)

def System.initial : System K := ⟨.new, [], ∅, []⟩

inductive Action (K : Type) where
  | acquire (name : Nat) (key : K)
  | poll (name : Nat) (waker : Waker)
  | dropAcquire (name : Nat)
  | dropPermit (index : Nat)
  | close

/-- What an action returns to its caller. -/
inductive Reply (K : Type) where
  | done
  | polled (result : Poll K)
  /-- The panic of a poll after completion, before any lock is taken. -/
  | polledAfterCompletion

/-- The permit a result carries. -/
def Poll.permit : Poll K → List (QueueGatePermit K)
  | .ready (.ok permit) => [permit]
  | .ready (.error _) | .pending => []

/-- An action on a permit or future that does not exist changes nothing. -/
def perform (limits : Limits) (sys : System K) :
    Action K → Except Panic (Reply K × System K)
  | .acquire name key =>
    match sys.futures[name]? with
    | some _ => .ok (.done, sys)
    | none => .ok (.done, { sys with futures := sys.futures.insert name (acquire key) })
  | .poll name waker =>
    match sys.futures[name]? with
    | none => .ok (.done, sys)
    | some future =>
      if future.completed then .ok (.polledAfterCompletion, sys)
      else do
        let polled ← poll limits sys.gate future waker
        .ok (.polled polled.result, {
          gate := polled.state
          permits := sys.permits ++ polled.result.permit
          futures := sys.futures.insert name polled.future
          log := sys.log ++ polled.events })
  | .dropAcquire name =>
    match sys.futures[name]? with
    | none => .ok (.done, sys)
    | some future => do
      let released ← dropAcquire sys.gate future
      .ok (.done, { sys with
        gate := released.state
        futures := sys.futures.erase name
        log := sys.log ++ released.events })
  | .dropPermit index =>
    match sys.permits[index]? with
    | none => .ok (.done, sys)
    | some permit => do
      let released ← releaseKeyLocked sys.gate permit.key
      .ok (.done, { sys with
        gate := released.state
        permits := sys.permits.eraseIdx index
        log := sys.log ++ released.events })
  | .close => .ok (.done, { sys with
      gate := (close sys.gate).2
      log := sys.log ++ [.dispersed] })

/-- A step of a run: an action whose locked sections do not panic. -/
def Step (limits : Limits) : System K → Action K → System K → Prop :=
  Runs.Performs (perform limits)

end QueueGate
