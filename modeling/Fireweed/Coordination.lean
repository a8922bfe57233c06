import Fireweed.ByteAdmission
import Fireweed.WaitingLines

/-!
# Coordination of batched work

The keyed selection fence: any number of shared holders or one exclusive holder
for each key, with a line of waiters. A waiter is granted by whichever operation
frees its key, and its future learns of that at a later poll. A future whose
deadline passes completes and stays in line until it is dropped.

Every locked section is a function on the state under the mutex; a failed `expect`
is an error of that function. Beside its result it returns what happened to the
lines of waiters.
-/

namespace Coordination

inductive CoordinationError where
  | closed (resource : String)
  | capacity (resource : String)
  | deadline (resource : String)
deriving DecidableEq

end Coordination

namespace SelectionFence

open BTree Coordination Std
open ByteAdmission (Panic Waker expectSome)

def waitersResource : String := "selection fence waiters"

def acquireResource : String := "selection fence acquire"

abbrev Event (K : Type) := WaitingLines.Event K UInt64

inductive SelectionFenceMode where
  | shared
  | exclusive
deriving DecidableEq

abbrev FenceWaiterStatus := WaitingLines.Status

structure FenceWaiter where
  mode : SelectionFenceMode
  status : FenceWaiterStatus
  waker : Option Waker
deriving DecidableEq

structure FenceEntry where
  readers : Nat
  writer : Bool
  waiters : List UInt64
deriving DecidableEq

structure SelectionFenceState (K : Type) [Ord K] where
  closed : Bool
  nextWaiterId : UInt64
  entries : BTreeMap K FenceEntry
  waiters : BTreeMap UInt64 FenceWaiter

structure SelectionFencePermit (K : Type) where
  key : K
  mode : SelectionFenceMode
deriving DecidableEq

/-- Times are in nanoseconds. -/
structure SelectionFenceAcquire (K : Type) where
  key : K
  mode : SelectionFenceMode
  maxWait : Nat
  waiterId : Option UInt64
  acquired : Bool
  completed : Bool
  registeredAt : Option Nat
  /-- What a poll between its two locked sections has read in the first. -/
  settling : Option FenceWaiterStatus
deriving DecidableEq

variable {K : Type} [Ord K] [TransOrd K]

def SelectionFenceState.new : SelectionFenceState K := ⟨false, 0, ∅, ∅⟩

def acquireWithWait (key : K) (mode : SelectionFenceMode) (maxWait : Nat) :
    SelectionFenceAcquire K :=
  ⟨key, mode, maxWait, none, false, false, none, none⟩

def closeWaiter (waiters : BTreeMap UInt64 FenceWaiter) (id : UInt64) :
    BTreeMap UInt64 FenceWaiter :=
  match waiters[id]? with
  | some waiter => waiters.insert id { waiter with status := .closed, waker := none }
  | none => waiters

def FenceEntry.isHeld (entry : FenceEntry) : Bool := entry.writer || decide (0 < entry.readers)

def close (state : SelectionFenceState K) : List Waker × SelectionFenceState K :=
  let waiterIds := state.entries.toList.flatMap fun entry => entry.2.waiters
  (waiterIds.filterMap fun id => state.waiters[id]?.bind FenceWaiter.waker,
    { state with
      closed := true
      entries := (state.entries.map fun _ entry => { entry with waiters := [] }).filter
        fun _ entry => entry.isHeld
      waiters := waiterIds.foldl closeWaiter state.waiters })

/-- What a release or a drop does to the lines, whom it wakes, and the state after it. -/
structure Released (K : Type) [Ord K] where
  events : List (Event K)
  wakers : List Waker
  state : SelectionFenceState K

/-- The shared waiters at the front of a line, and the line behind them. -/
def takeShared (waiters : BTreeMap UInt64 FenceWaiter) :
    List UInt64 → Except Panic (List UInt64 × List UInt64)
  | [] => .ok ([], [])
  | waiterId :: rest => do
    let waiter ← expectSome waiters[waiterId]? "queued selection fence waiter missing"
    if waiter.mode ≠ .shared then .ok ([], waiterId :: rest)
    else do
      let (ids, rest) ← takeShared waiters rest
      .ok (waiterId :: ids, rest)

def grantWaiters : List UInt64 → BTreeMap UInt64 FenceWaiter →
    Except Panic (List Waker × BTreeMap UInt64 FenceWaiter)
  | [], waiters => .ok ([], waiters)
  | waiterId :: rest, waiters => do
    let waiter ← expectSome waiters[waiterId]? "granted selection fence waiter missing"
    let (wakers, waiters) ←
      grantWaiters rest (waiters.insert waiterId { waiter with status := .granted, waker := none })
    .ok (waiter.waker.toList ++ wakers, waiters)

/-- Whom a free key goes to, and its entry after that: one exclusive waiter, or all shared
waiters up to the first exclusive one. -/
def chooseGrants (waiters : BTreeMap UInt64 FenceWaiter) (entry : FenceEntry) (firstId : UInt64)
    (rest : List UInt64) : Except Panic (List UInt64 × FenceEntry) := do
  let first ← expectSome waiters[firstId]? "queued selection fence waiter missing"
  match first.mode with
  | .exclusive => .ok ([firstId], { entry with waiters := rest, writer := true })
  | .shared => do
    let (ids, rest) ← takeShared waiters (firstId :: rest)
    .ok (ids, { entry with waiters := rest, readers := entry.readers + ids.length })

def grantFenceLocked (state : SelectionFenceState K) (key : K) : Except Panic (Released K) :=
  match state.entries[key]? with
  | none => .ok ⟨[], [], state⟩
  | some entry =>
    if entry.isHeld then .ok ⟨[], [], state⟩
    else match entry.waiters with
      | [] => .ok ⟨[], [], { state with entries := state.entries.erase key }⟩
      | firstId :: rest => do
        let (ids, entry) ← chooseGrants state.waiters entry firstId rest
        let (wakers, waiters) ← grantWaiters ids state.waiters
        .ok ⟨ids.map (.granted key), wakers, { state with
          entries := state.entries.insert key entry, waiters }⟩

def FenceEntry.release (entry : FenceEntry) : SelectionFenceMode → FenceEntry
  | .shared => { entry with readers := entry.readers - 1 }
  | .exclusive => { entry with writer := false }

def releaseFenceLocked (state : SelectionFenceState K) (key : K) (mode : SelectionFenceMode) :
    Except Panic (Released K) :=
  match state.entries[key]? with
  | none => grantFenceLocked state key
  | some entry =>
    grantFenceLocked { state with entries := state.entries.insert key (entry.release mode) } key

inductive Poll (K : Type) where
  | pending
  | ready (result : Except CoordinationError (SelectionFencePermit K))
  /-- The poll has not reached its second locked section. -/
  | settling

/-- What a poll returns and leaves behind. -/
structure Polled (K : Type) [Ord K] where
  result : Poll K
  events : List (Event K)
  future : SelectionFenceAcquire K
  state : SelectionFenceState K

/-- The future that has returned its permit. -/
def SelectionFenceAcquire.admitted (future : SelectionFenceAcquire K) : SelectionFenceAcquire K :=
  { future with acquired := true, completed := true, settling := none }

def SelectionFenceAcquire.complete (future : SelectionFenceAcquire K) : SelectionFenceAcquire K :=
  { future with completed := true, settling := none }

/-- The first locked section of a poll of a registered future, and the deadline. -/
def pollRegistered (state : SelectionFenceState K) (future : SelectionFenceAcquire K)
    (waiterId : UInt64) (waker : Waker) (now : Nat) : Except Panic (Polled K) := do
  let waiter ← expectSome state.waiters[waiterId]? "selection fence waiter missing"
  match waiter.status with
  | .waiting =>
    let state := { state with
      waiters := state.waiters.insert waiterId { waiter with waker := some waker } }
    let started := future.registeredAt.getD now
    let future := { future with registeredAt := some started }
    if future.maxWait ≤ now - started then
      .ok ⟨.ready (.error (.deadline acquireResource)), [], future.complete, state⟩
    else .ok ⟨.pending, [], future, state⟩
  | status => .ok ⟨.settling, [], { future with settling := some status }, state⟩

/-- The second locked section: the waiter is removed. -/
def pollSettled (state : SelectionFenceState K) (future : SelectionFenceAcquire K)
    (waiterId : UInt64) (status : FenceWaiterStatus) : Polled K :=
  let state := { state with waiters := state.waiters.erase waiterId }
  match status with
  | .granted => ⟨.ready (.ok ⟨future.key, future.mode⟩), [], future.admitted, state⟩
  | _ => ⟨.ready (.error (.closed waitersResource)), [], future.complete, state⟩

/-- A caller may pass if nobody waits and no holder conflicts. -/
def immediatelyAvailable (entry : Option FenceEntry) (mode : SelectionFenceMode) : Bool :=
  entry.all fun entry =>
    !entry.writer && entry.waiters.isEmpty && (mode = .shared || entry.readers = 0)

def FenceEntry.hold (entry : FenceEntry) : SelectionFenceMode → FenceEntry
  | .shared => { entry with readers := entry.readers + 1 }
  | .exclusive => { entry with writer := true }

def pollFirst (state : SelectionFenceState K) (future : SelectionFenceAcquire K) (waker : Waker)
    (now : Nat) : Except Panic (Polled K) :=
  if state.closed then
    .ok ⟨.ready (.error (.closed waitersResource)), [], future.complete, state⟩
  else if immediatelyAvailable state.entries[future.key]? future.mode then
    let entry := state.entries[future.key]?.getD ⟨0, false, []⟩
    .ok ⟨.ready (.ok ⟨future.key, future.mode⟩), [.entered future.key], future.admitted,
      { state with entries := state.entries.insert future.key (entry.hold future.mode) }⟩
  else do
    let waiterId := state.nextWaiterId
    let entry ← expectSome state.entries[future.key]? "contended selection fence entry missing"
    .ok ⟨.pending, [.joined future.key waiterId],
      { future with waiterId := some waiterId, registeredAt := some now }, { state with
        nextWaiterId := state.nextWaiterId + 1
        waiters := state.waiters.insert waiterId ⟨future.mode, .waiting, some waker⟩
        entries := state.entries.insert future.key
          { entry with waiters := entry.waiters ++ [waiterId] } }⟩

/-- A poll of a future that is not completed, up to its first locked section. -/
def poll (state : SelectionFenceState K) (future : SelectionFenceAcquire K) (waker : Waker)
    (now : Nat) : Except Panic (Polled K) :=
  match future.waiterId with
  | some waiterId => pollRegistered state future waiterId waker now
  | none => pollFirst state future waker now

/-- Take a waiter out of the line of its key. -/
def cancelWaiting (state : SelectionFenceState K) (key : K) (waiterId : UInt64) :
    List (Event K) × SelectionFenceState K :=
  match state.entries[key]? with
  | some entry =>
    if waiterId ∈ entry.waiters then
      ([.left key waiterId], { state with
        entries := state.entries.insert key
          { entry with waiters := entry.waiters.erase waiterId } })
    else ([], state)
  | none => ([], state)

def dropAcquire (state : SelectionFenceState K) (future : SelectionFenceAcquire K) :
    Except Panic (Released K) :=
  if future.acquired then .ok ⟨[], [], state⟩
  else match future.waiterId with
    | none => .ok ⟨[], [], state⟩
    | some waiterId => match state.waiters[waiterId]? with
      | none => .ok ⟨[], [], state⟩
      | some waiter =>
        let state := { state with waiters := state.waiters.erase waiterId }
        match waiter.status with
        | .waiting => do
          let (left, state) := cancelWaiting state future.key waiterId
          let released ← grantFenceLocked state future.key
          .ok { released with events := left ++ released.events }
        | .granted => releaseFenceLocked state future.key waiter.mode
        | .closed => .ok ⟨[], [], state⟩

/-! ## The fence with its permits and futures -/

structure System (K : Type) [Ord K] where
  fence : SelectionFenceState K
  permits : List (SelectionFencePermit K)
  futures : BTreeMap Nat (SelectionFenceAcquire K)
  /-- What happened to the lines, in order. -/
  log : List (Event K)

def System.initial : System K := ⟨.new, [], ∅, []⟩

inductive Action (K : Type) where
  | acquire (name : Nat) (key : K) (mode : SelectionFenceMode) (maxWait : Nat)
  | poll (name : Nat) (waker : Waker) (now : Nat)
  /-- The second locked section of a poll. -/
  | settle (name : Nat)
  | dropAcquire (name : Nat)
  | dropPermit (index : Nat)
  | close

/-- What an action returns to its caller. -/
inductive Reply (K : Type) where
  | done
  | polled (result : Poll K)
  /-- The panic of a poll after completion, before any lock is taken. -/
  | polledAfterCompletion

/-- The permit a result carries. -/
def Poll.permit : Poll K → List (SelectionFencePermit K)
  | .ready (.ok permit) => [permit]
  | .ready (.error _) | .pending | .settling => []

def System.polled (sys : System K) (name : Nat) (polled : Polled K) : System K where
  fence := polled.state
  permits := sys.permits ++ polled.result.permit
  futures := sys.futures.insert name polled.future
  log := sys.log ++ polled.events

/-- An action on a permit or future that does not exist changes nothing. A future that is being
polled can be neither polled nor dropped. -/
def perform (sys : System K) : Action K → Except Panic (Reply K × System K)
  | .acquire name key mode maxWait =>
    match sys.futures[name]? with
    | some _ => .ok (.done, sys)
    | none => .ok (.done, { sys with
        futures := sys.futures.insert name (acquireWithWait key mode maxWait) })
  | .poll name waker now =>
    match sys.futures[name]? with
    | none => .ok (.done, sys)
    | some future =>
      if future.settling.isSome then .ok (.done, sys)
      else if future.completed then .ok (.polledAfterCompletion, sys)
      else do
        let polled ← poll sys.fence future waker now
        .ok (.polled polled.result, sys.polled name polled)
  | .settle name =>
    match sys.futures[name]? with
    | none => .ok (.done, sys)
    | some future =>
      match future.waiterId, future.settling with
      | some waiterId, some status =>
        let polled := pollSettled sys.fence future waiterId status
        .ok (.polled polled.result, sys.polled name polled)
      | _, _ => .ok (.done, sys)
  | .dropAcquire name =>
    match sys.futures[name]? with
    | none => .ok (.done, sys)
    | some future =>
      if future.settling.isSome then .ok (.done, sys)
      else do
        let released ← dropAcquire sys.fence future
        .ok (.done, { sys with
          fence := released.state
          futures := sys.futures.erase name
          log := sys.log ++ released.events })
  | .dropPermit index =>
    match sys.permits[index]? with
    | none => .ok (.done, sys)
    | some permit => do
      let released ← releaseFenceLocked sys.fence permit.key permit.mode
      .ok (.done, { sys with
        fence := released.state
        permits := sys.permits.eraseIdx index
        log := sys.log ++ released.events })
  | .close => .ok (.done, { sys with
      fence := (close sys.fence).2
      log := sys.log ++ [.dispersed] })

/-- A step of a run: an action whose locked sections do not panic. -/
def Step : System K → Action K → System K → Prop := Runs.Performs perform

end SelectionFence
