import Fireweed.BatchLines
import Fireweed.Coordination

/-!
# The mutation sequencer

Mutations of a queue are served in generations: a request attaches to the last
generation of its queue if that one is compatible, has not started and has room, and
opens a new one otherwise. The front generation is started as a batch, which removes
it when it ends. A request whose ticket is dropped leaves its generation as long as
that has not started.

Every locked section is a function on the state under the mutex. A lookup by index
that follows a successful search under the same lock is part of the search.
-/

namespace MutationSequencer

open BTree Coordination Std
open BatchLines (Event)
open ByteAdmission (Panic expectSome)

def claimGenerationMaxRequests : Nat := 8

def generationMaxItems : Nat := 8192

def generationMaxResponseBytes : Nat := 32 * 1024 * 1024

def mutationMaxGenerationsPerQueue : Nat := 4

def mutationMaxRequestsPerQueue : Nat := 16

def mutationSequencerResource : String := "mutation sequencer capacity"

inductive MutationIngress where
  | direct
  | keyedPermitLive
deriving DecidableEq

structure MutationEntry (R : Type) where
  id : UInt64
  request : R
  ingress : MutationIngress
  items : Nat
  responseBytes : Nat
deriving DecidableEq

/-- Times are in nanoseconds. -/
structure MutationGeneration (C R : Type) where
  id : UInt64
  compatibility : C
  active : Bool
  items : Nat
  responseBytes : Nat
  firstQueuedAt : Nat
  requests : List (MutationEntry R)
deriving DecidableEq

structure MutationQueue (C R : Type) where
  generations : List (MutationGeneration C R)
deriving DecidableEq

structure MutationSequencerState (K C R : Type) [Ord K] where
  closed : Bool
  nextRequestId : UInt64
  nextGenerationId : UInt64
  queues : BTreeMap K (MutationQueue C R)

structure MutationTicket (K R : Type) where
  queue : K
  requestId : UInt64
  generationId : UInt64
  request : R
deriving DecidableEq

structure MutationGenerationBatch (K R : Type) where
  queue : K
  generationId : UInt64
  requests : List R
  items : Nat
  responseBytes : Nat
deriving DecidableEq

variable {K C R : Type} [Ord K] [TransOrd K] [DecidableEq C]

namespace MutationGeneration

/-- Whether a request may attach to the last generation of its queue. -/
def canAttach (generation : MutationGeneration C R) (compatibility : C)
    (items responseBytes : Nat) : Bool :=
  !generation.active && generation.compatibility = compatibility &&
    generation.requests.length < claimGenerationMaxRequests &&
    generation.items + items ≤ generationMaxItems &&
    generation.responseBytes + responseBytes ≤ generationMaxResponseBytes

def push (generation : MutationGeneration C R) (entry : MutationEntry R) :
    MutationGeneration C R :=
  { generation with
    items := generation.items + entry.items
    responseBytes := generation.responseBytes + entry.responseBytes
    requests := generation.requests ++ [entry] }

def full (generation : MutationGeneration C R) : Bool :=
  claimGenerationMaxRequests ≤ generation.requests.length ||
    generationMaxItems ≤ generation.items ||
    generationMaxResponseBytes ≤ generation.responseBytes

/-- Take the first request with an id out of a generation. -/
def withdraw (generation : MutationGeneration C R) (requestId : UInt64) :
    MutationGeneration C R :=
  match generation.requests.find? fun request => request.id = requestId with
  | none => generation
  | some request => { generation with
      items := generation.items - request.items
      responseBytes := generation.responseBytes - request.responseBytes
      requests := generation.requests.eraseP fun request => request.id = requestId }

/-- What the drop of a ticket leaves of its generation. -/
def cancel (generation : MutationGeneration C R) (requestId : UInt64) :
    Option (MutationGeneration C R) :=
  if generation.active then some generation
  else
    let generation := generation.withdraw requestId
    if generation.requests.isEmpty then none else some generation

end MutationGeneration

def pushInto (generationId : UInt64) (entry : MutationEntry R) :
    List (MutationGeneration C R) → Option (List (MutationGeneration C R))
  | [] => none
  | generation :: rest =>
    if generation.id = generationId then some (generation.push entry :: rest)
    else (pushInto generationId entry rest).map (generation :: ·)

def cancelIn (generationId requestId : UInt64) :
    List (MutationGeneration C R) → List (MutationGeneration C R)
  | [] => []
  | generation :: rest =>
    if generation.id = generationId then (generation.cancel requestId).toList ++ rest
    else generation :: cancelIn generationId requestId rest

namespace MutationSequencerState

def new : MutationSequencerState K C R := ⟨false, 0, 0, ∅⟩

def generations (state : MutationSequencerState K C R) (queue : K) :
    List (MutationGeneration C R) :=
  (state.queues[queue]?).elim [] MutationQueue.generations

/-- The generations of a queue that is there, or its removal if none is left. -/
def replace (state : MutationSequencerState K C R) (queue : K)
    (generations : List (MutationGeneration C R)) : MutationSequencerState K C R :=
  if generations.isEmpty then { state with queues := state.queues.erase queue }
  else { state with queues := state.queues.insert queue ⟨generations⟩ }

/-- Open a generation at the end of a queue, if the queue has room for it. -/
def openGeneration (state : MutationSequencerState K C R) (queue : K) (compatibility : C)
    (now : Nat) : Option (UInt64 × MutationSequencerState K C R) :=
  if mutationMaxGenerationsPerQueue ≤ (state.generations queue).length then none
  else some (state.nextGenerationId, { state with
    nextGenerationId := state.nextGenerationId + 1
    queues := state.queues.insert queue ⟨state.generations queue ++
      [⟨state.nextGenerationId, compatibility, false, 0, 0, now, []⟩]⟩ })

/-- The generation a request goes to. -/
def assign (state : MutationSequencerState K C R) (queue : K) (compatibility : C)
    (items responseBytes now : Nat) : Option (UInt64 × MutationSequencerState K C R) :=
  match (state.generations queue).getLast?.filter
      (·.canAttach compatibility items responseBytes) with
  | some generation => some (generation.id, state)
  | none => state.openGeneration queue compatibility now

end MutationSequencerState

def totalRequests (generations : List (MutationGeneration C R)) : Nat :=
  (generations.map fun generation => generation.requests.length).sum

/-- The id of a request is used up even when the queue has no room for it. -/
def admitRequest (state : MutationSequencerState K C R) (queue : K) (compatibility : C)
    (ingress : MutationIngress) (request : R) (items responseBytes now : Nat) :
    Except Panic
      (Except CoordinationError (MutationTicket K R) × MutationSequencerState K C R) :=
  if generationMaxItems < items || generationMaxResponseBytes < responseBytes then
    .ok (.error (.capacity mutationSequencerResource), state)
  else if state.closed then .ok (.error (.closed mutationSequencerResource), state)
  else
    let requestId := state.nextRequestId
    let state := { state with nextRequestId := state.nextRequestId + 1 }
    if mutationMaxRequestsPerQueue ≤ totalRequests (state.generations queue) then
      .ok (.error (.capacity mutationSequencerResource), state)
    else match state.assign queue compatibility items responseBytes now with
      | none => .ok (.error (.capacity mutationSequencerResource), state)
      | some (generationId, state) => do
        let generations ← expectSome (pushInto generationId
          ⟨requestId, request, ingress, items, responseBytes⟩ (state.generations queue))
          "mutation generation missing after admission"
        .ok (.ok ⟨queue, requestId, generationId, request⟩,
          { state with queues := state.queues.insert queue ⟨generations⟩ })

def startGenerationAfter (state : MutationSequencerState K C R) (queue : K) (linger now : Nat) :
    Option (MutationGenerationBatch K R × MutationSequencerState K C R) :=
  match state.generations queue with
  | [] => none
  | generation :: rest =>
    if generation.active then none
    else if !generation.full && now - generation.firstQueuedAt < linger then none
    else some (⟨queue, generation.id, generation.requests.map MutationEntry.request,
        generation.items, generation.responseBytes⟩,
      { state with queues :=
        state.queues.insert queue ⟨{ generation with active := true } :: rest⟩ })

/-- The end of a batch, by `complete` or by its drop. -/
def finish (state : MutationSequencerState K C R) (batch : MutationGenerationBatch K R) :
    MutationSequencerState K C R :=
  match state.queues[batch.queue]? with
  | none => state
  | some queue => state.replace batch.queue
      (queue.generations.eraseP fun generation => generation.id = batch.generationId)

def dropTicket (state : MutationSequencerState K C R) (ticket : MutationTicket K R) :
    MutationSequencerState K C R :=
  match state.queues[ticket.queue]? with
  | none => state
  | some queue => state.replace ticket.queue
      (cancelIn ticket.generationId ticket.requestId queue.generations)

def close (state : MutationSequencerState K C R) : MutationSequencerState K C R :=
  { state with
    closed := true
    queues := (state.queues.map fun _ queue =>
        ⟨queue.generations.filter MutationGeneration.active⟩).filter
      fun _ queue => !queue.generations.isEmpty }

/-! ## The sequencer with its tickets and batches -/

/-- What a caller asked for. -/
structure Admission (C R : Type) where
  compatibility : C
  request : R
deriving DecidableEq

def MutationGeneration.admissions (generation : MutationGeneration C R) :
    List (UInt64 × Admission C R) :=
  generation.requests.map fun entry => (entry.id, ⟨generation.compatibility, entry.request⟩)

structure System (K C R : Type) [Ord K] where
  sequencer : MutationSequencerState K C R
  tickets : List (MutationTicket K R)
  /-- The batches that have not ended. -/
  batches : List (MutationGenerationBatch K R)
  /-- What happened to the queues, in order. -/
  log : List (Event K UInt64 (Admission C R))

def System.initial : System K C R := ⟨.new, [], [], []⟩

inductive Action (K C R : Type) where
  | admitRequest (queue : K) (compatibility : C) (ingress : MutationIngress) (request : R)
      (items responseBytes now : Nat)
  | start (queue : K) (linger now : Nat)
  | finish (index : Nat)
  | dropTicket (index : Nat)
  | close

def Action.admits : Action K C R → Nat
  | .admitRequest .. => 1
  | .start .. | .finish _ | .dropTicket _ | .close => 0

inductive Reply (K R : Type) where
  | admitted (result : Except CoordinationError (MutationTicket K R))
  | started (batch : Option (MutationGenerationBatch K R))
  | done

/-- What a start at this moment would hand over. -/
def System.front (sys : System K C R) (queue : K) : List (UInt64 × Admission C R) :=
  (sys.sequencer.generations queue).head?.elim [] MutationGeneration.admissions

/-- An action on a ticket or batch that does not exist changes nothing. -/
def perform (sys : System K C R) : Action K C R → Except Panic (Reply K R × System K C R)
  | .admitRequest queue compatibility ingress request items responseBytes now => do
    let (result, sequencer) ←
      admitRequest sys.sequencer queue compatibility ingress request items responseBytes now
    match result with
    | .error _ => .ok (.admitted result, { sys with sequencer })
    | .ok ticket => .ok (.admitted result, { sys with
        sequencer
        tickets := sys.tickets ++ [ticket]
        log := sys.log ++ [.joined queue ticket.requestId ⟨compatibility, request⟩] })
  | .start queue linger now =>
    match startGenerationAfter sys.sequencer queue linger now with
    | none => .ok (.started none, sys)
    | some (batch, sequencer) => .ok (.started (some batch), { sys with
        sequencer
        batches := sys.batches ++ [batch]
        log := sys.log ++ [.started queue (sys.front queue)] })
  | .finish index =>
    match sys.batches[index]? with
    | none => .ok (.done, sys)
    | some batch => .ok (.done, { sys with
        sequencer := finish sys.sequencer batch
        batches := sys.batches.eraseIdx index
        log := sys.log ++ [.ended batch.queue] })
  | .dropTicket index =>
    match sys.tickets[index]? with
    | none => .ok (.done, sys)
    | some ticket => .ok (.done, { sys with
        sequencer := dropTicket sys.sequencer ticket
        tickets := sys.tickets.eraseIdx index
        log := sys.log ++ [.left ticket.queue ticket.requestId] })
  | .close => .ok (.done, { sys with
      sequencer := close sys.sequencer
      log := sys.log ++ [.dispersed] })

def Step : System K C R → Action K C R → System K C R → Prop := Runs.Performs perform

end MutationSequencer
