import Fireweed.Coordination.SequencerGenerations

/-!
# Order of the mutation sequencer

As long as no id is handed out twice, the batches started for a queue are its admitted
requests in order, without those that were dropped or sent away before their
generation started. Ids come from counters of 64 bits that wrap; once they do, a
request can get into a generation that has started.
-/

namespace MutationSequencer

open BTree BatchLines Checked List Runs Std MutationSequencerState MutationGeneration
open ByteAdmission (Panic expectSome)

variable {K C R : Type} [Ord K] [TransOrd K] [DecidableEq K]

/-- The request of a ticket is in no other generation than its own. -/
def Placed (ticket : MutationTicket K R) (generations : List (MutationGeneration C R)) : Prop :=
  ∀ generation ∈ generations, ∀ entry ∈ generation.requests,
    entry.id = ticket.requestId → generation.id = ticket.generationId

/-- The batch is the front generation, which has started. -/
def Owns (batch : MutationGenerationBatch K R) (generations : List (MutationGeneration C R)) :
    Prop :=
  ∃ generation rest, generations = generation :: rest ∧ generation.active = true ∧
    batch = ⟨batch.queue, generation.id, generation.requests.map MutationEntry.request,
      generation.items, generation.responseBytes⟩

/-- The sequencer agrees with its tickets, its batches and the log, after at most so many
admissions. -/
structure Sound (admissions : Nat) (sys : System K C R) : Prop where
  orderly : Orderly sys.log
  requests : sys.sequencer.nextRequestId.toNat ≤ admissions
  generations : sys.sequencer.nextGenerationId.toNat ≤ admissions
  serves : ∀ queue, Serves sys.sequencer.nextRequestId.toNat sys.sequencer.nextGenerationId.toNat
    (account queue sys.log) (sys.sequencer.generations queue)
  tickets : ∀ ticket ∈ sys.tickets, ticket.requestId ∈ (account ticket.queue sys.log).joinedIds ∧
    Placed ticket (sys.sequencer.generations ticket.queue)
  batches : ∀ batch ∈ sys.batches, Owns batch (sys.sequencer.generations batch.queue)
  distinct : (sys.batches.map MutationGenerationBatch.queue).Nodup

open MutationSequencer.System

theorem sound_initial : Sound 0 (initial : System K C R) where
  orderly := orderly_nil
  requests := by simp [initial, new]
  generations := by simp [initial, new]
  serves queue := by
    simp only [initial, new, generations, ExtTreeMap.getElem?_empty]
    exact serves_empty
  tickets := by simp [initial]
  batches := by simp [initial]
  distinct := by simp [initial]

section States

variable [LawfulEqOrd K] {state : MutationSequencerState K C R}
  {generations : List (MutationGeneration C R)} {queue : K}

theorem generations_insert (queue other : K) {queues : BTreeMap K (MutationQueue C R)} :
    ((queues.insert queue ⟨generations⟩)[other]?).elim [] MutationQueue.generations =
      if queue = other then generations else (queues[other]?).elim [] MutationQueue.generations :=
        by
  rw [get_insert]
  split <;> rfl

theorem generations_replace (other : K) : (state.replace queue generations).generations other =
    if queue = other then generations else state.generations other := by
  rw [MutationSequencerState.replace]
  split
  · next empty =>
    simp only [MutationSequencerState.generations, get_erase]
    split
    · exact (isEmpty_iff.mp empty).symm
    · rfl
  · exact generations_insert queue other

omit [DecidableEq K] [LawfulEqOrd K] in
theorem counters_replace : (state.replace queue generations).nextRequestId = state.nextRequestId ∧
    (state.replace queue generations).nextGenerationId = state.nextGenerationId := by
  rw [MutationSequencerState.replace]
  split <;> exact ⟨rfl, rfl⟩

omit [DecidableEq K] in
theorem generations_close : (close state).generations queue =
    (state.generations queue).filter active := by
  simp only [generations, close, ExtTreeMap.getElem?_filter', ExtTreeMap.getElem?_map]
  cases state.queues[queue]? with
  | none => rfl
  | some entry =>
    simp only [Option.map_some, Option.filter]
    split
    · rfl
    · next empty =>
      have none : entry.generations.filter active = [] := by simpa using empty
      simp [none]

end States

variable {ticket : MutationTicket K R} {index : Nat}

omit [Ord K] [TransOrd K] [DecidableEq K] in
theorem Placed.within {before after : List (MutationGeneration C R)} (placed : Placed ticket before)
    (within : Within after before) : Placed ticket after := by
  intro generation member entry here same
  obtain ⟨other, there, id, kept⟩ := within generation member
  rw [← id]
  exact placed other there entry (kept entry here) same

namespace Sound

variable [LawfulEqOrd K] {admissions : Nat} {sys : System K C R} (sound : Sound admissions sys)

include sound

omit [LawfulEqOrd K] in
/-- A step that is about one queue. -/
theorem change (queue : K) {after : System K C R} {later : Nat}
    {event : Event K UInt64 (Admission C R)} (logged : after.log = sys.log ++ [event])
    (about : event.about = some queue) (turn : event.InTurn sys.log)
    (requests : sys.sequencer.nextRequestId.toNat ≤ after.sequencer.nextRequestId.toNat ∧
      after.sequencer.nextRequestId.toNat ≤ later)
    (generations : sys.sequencer.nextGenerationId.toNat ≤ after.sequencer.nextGenerationId.toNat ∧
      after.sequencer.nextGenerationId.toNat ≤ later)
    {now : List (MutationGeneration C R)} (gens : ∀ other, after.sequencer.generations other =
      if queue = other then now else sys.sequencer.generations other)
    (serves : Serves after.sequencer.nextRequestId.toNat after.sequencer.nextGenerationId.toNat
      (event.post queue (account queue sys.log)) now)
    (oldTickets : ∀ ticket ∈ after.tickets, queue ≠ ticket.queue → ticket ∈ sys.tickets)
    (tickets : ∀ ticket ∈ after.tickets, ticket.queue = queue →
      ticket.requestId ∈ (event.post queue (account queue sys.log)).joinedIds ∧
        Placed ticket now)
    (oldBatches : ∀ batch ∈ after.batches, queue ≠ batch.queue → batch ∈ sys.batches)
    (batches : ∀ batch ∈ after.batches, batch.queue = queue → Owns batch now)
    (distinct : (after.batches.map MutationGenerationBatch.queue).Nodup) : Sound later after where
  orderly := by
    rw [logged]
    exact sound.orderly.snoc turn
  requests := requests.2
  generations := generations.2
  serves other := by
    rw [logged, account_snoc, gens]
    split
    · next here => exact here ▸ serves
    · next here =>
      rw [event.post_other about here]
      exact (sound.serves other).mono requests.1 generations.1
  tickets ticket member := by
    rw [logged, account_snoc, gens]
    split
    · next here => exact here ▸ tickets ticket member here.symm
    · next here =>
      rw [event.post_other about here]
      exact sound.tickets ticket (oldTickets ticket member here)
  batches batch member := by
    rw [gens]
    split
    · next here => exact batches batch member here.symm
    · next here => exact sound.batches batch (oldBatches batch member here)
  distinct := distinct

omit [LawfulEqOrd K] in
/-- A step that admits nothing leaves the tickets where they are. -/
theorem kept {now : List (MutationGeneration C R)} (event : Event K UInt64 (Admission C R))
    (within : Within now (sys.sequencer.generations ticket.queue)) (member : ticket ∈ sys.tickets) :
    ticket.requestId ∈ (event.post ticket.queue (account ticket.queue sys.log)).joinedIds ∧
      Placed ticket now := by
  obtain ⟨admitted, placed⟩ := sound.tickets ticket member
  exact ⟨Event.joinedIds_post _ _ _ _ admitted, placed.within within⟩

variable {queue : K}

theorem started {generation : MutationGeneration C R} {rest : List (MutationGeneration C R)}
    (front : sys.sequencer.generations queue = generation :: rest)
    (idle : generation.active = false) :
    Sound admissions { sys with
      sequencer := { sys.sequencer with
        queues :=
          sys.sequencer.queues.insert queue ⟨{ generation with active := true } :: rest⟩ }
      batches := sys.batches ++ [⟨queue, generation.id,
        generation.requests.map MutationEntry.request, generation.items,
        generation.responseBytes⟩]
      log := sys.log ++ [.started queue generation.admissions] } := by
  have serves := sound.serves queue
  rw [front] at serves
  have exact_ := sound.orderly.exact queue
  have free : (account queue sys.log).busy = false := by
    rw [Bool.eq_false_iff]
    intro busy
    obtain ⟨other, member, active⟩ := serves.busy.mp busy
    rcases mem_cons.mp member with rfl | later
    · exact absurd (idle.symm.trans active) Bool.false_ne_true
    · exact absurd ((serves.lined.idle other later).symm.trans active) Bool.false_ne_true
  have noBatch : ∀ batch ∈ sys.batches, batch.queue ≠ queue := by
    rintro batch member rfl
    obtain ⟨other, others, here, active, -⟩ := sound.batches batch member
    rw [front] at here
    cases here
    exact absurd (idle.symm.trans active) Bool.false_ne_true
  have within : Within ({ generation with active := true } :: rest) (generation :: rest) := by
    intro other member
    rcases mem_cons.mp member with rfl | later
    · exact ⟨generation, mem_cons_self, rfl, fun _ here => here⟩
    · exact ⟨other, mem_cons_of_mem _ later, rfl, fun _ here => here⟩
  refine sound.change queue rfl rfl ⟨free, ?_⟩ ⟨le_rfl, sound.requests⟩
    ⟨le_rfl, sound.generations⟩ (fun other => generations_insert queue other) ?_
    (fun _ member _ => member) (fun ticket member here => ?_) (fun batch member different => ?_)
    (fun batch member here => ?_) ?_
  · rw [serves.line, waiting_idle idle]
    exact prefix_append ..
  · simp only [Event.post, if_pos]
    exact serves.start exact_ idle
  · subst here
    exact sound.kept _ (front ▸ within) member
  · rcases mem_append.mp member with old | new
    · exact old
    · rw [mem_singleton.mp new] at different
      exact absurd rfl different
  · rcases mem_append.mp member with old | new
    · exact absurd here (noBatch batch old)
    · rw [mem_singleton.mp new]
      exact ⟨_, rest, rfl, rfl, rfl⟩
  · rw [map_append, map_singleton]
    refine nodup_append.mpr ⟨sound.distinct, by simp, fun one old two new => ?_⟩
    obtain ⟨batch, member, rfl⟩ := mem_map.mp old
    rw [mem_singleton.mp new]
    exact noBatch batch member

theorem finished {batch : MutationGenerationBatch K R} (found : sys.batches[index]? = some batch) :
    Sound admissions { sys with
      sequencer := finish sys.sequencer batch
      batches := sys.batches.eraseIdx index
      log := sys.log ++ [.ended batch.queue] } := by
  have taken : (batch :: sys.batches.eraseIdx index).Perm sys.batches := by
    obtain ⟨inside, rfl⟩ := List.getElem?_eq_some_iff.mp found
    exact List.getElem_cons_eraseIdx_perm inside
  have member : batch ∈ sys.batches := mem_of_getElem? found
  have distinct := (taken.map MutationGenerationBatch.queue).nodup_iff.mpr sound.distinct
  rw [map_cons, nodup_cons] at distinct
  obtain ⟨generation, rest, front, active, owned⟩ := sound.batches batch member
  have serves := sound.serves batch.queue
  rw [front] at serves
  have gens : ∀ other, (finish sys.sequencer batch).generations other =
      if batch.queue = other then rest else sys.sequencer.generations other := by
    intro other
    rw [finish]
    cases there : sys.sequencer.queues[batch.queue]? with
    | none => simp [MutationSequencerState.generations, there] at front
    | some entry =>
      have all : entry.generations = generation :: rest := by
        simpa [MutationSequencerState.generations, there] using front
      have named : generation.id = batch.generationId := by rw [owned]
      rw [generations_replace, all, eraseP_cons_of_pos (by simpa using named)]
  have counters : (finish sys.sequencer batch).nextRequestId = sys.sequencer.nextRequestId ∧
      (finish sys.sequencer batch).nextGenerationId = sys.sequencer.nextGenerationId := by
    rw [finish]
    split
    · exact ⟨rfl, rfl⟩
    · exact counters_replace
  have within : Within rest (generation :: rest) := fun other later =>
    ⟨other, mem_cons_of_mem _ later, rfl, fun _ here => here⟩
  refine sound.change batch.queue rfl rfl (serves.busy.mpr ⟨_, mem_cons_self, active⟩)
    ?_ ?_ gens ?_ (fun _ member _ => member) (fun ticket member here => ?_)
    (fun other member different => ?_) (fun other member here => ?_) distinct.2
  · rw [counters.1]
    exact ⟨le_rfl, sound.requests⟩
  · rw [counters.2]
    exact ⟨le_rfl, sound.generations⟩
  · rw [counters.1, counters.2]
    simp only [Event.post, if_pos]
    exact serves.finish active
  · rw [← here] at front ⊢
    exact sound.kept _ (front ▸ within) member
  · exact taken.subset (mem_cons_of_mem _ member)
  · exact absurd (mem_map.mpr ⟨other, member, here⟩) distinct.1

theorem dropped (found : sys.tickets[index]? = some ticket) :
    Sound admissions { sys with
      sequencer := dropTicket sys.sequencer ticket
      tickets := sys.tickets.eraseIdx index
      log := sys.log ++ [.left ticket.queue ticket.requestId] } := by
  obtain ⟨admitted, placed⟩ := sound.tickets ticket (mem_of_getElem? found)
  have serves := sound.serves ticket.queue
  have gens : ∀ other, (dropTicket sys.sequencer ticket).generations other =
      if ticket.queue = other then
        cancelIn ticket.generationId ticket.requestId (sys.sequencer.generations ticket.queue)
      else sys.sequencer.generations other := by
    intro other
    rw [dropTicket]
    cases there : sys.sequencer.queues[ticket.queue]? with
    | none =>
      have empty : sys.sequencer.generations ticket.queue = [] := by
        simp [MutationSequencerState.generations, there]
      dsimp only
      split
      · next here =>
        rw [← here, empty]
        rfl
      · rfl
    | some entry =>
      have all : sys.sequencer.generations ticket.queue = entry.generations := by
        simp [MutationSequencerState.generations, there]
      rw [all]
      exact generations_replace other
  have counters :
      (dropTicket sys.sequencer ticket).nextRequestId = sys.sequencer.nextRequestId ∧
      (dropTicket sys.sequencer ticket).nextGenerationId = sys.sequencer.nextGenerationId := by
    rw [dropTicket]
    split
    · exact ⟨rfl, rfl⟩
    · exact counters_replace
  refine sound.change ticket.queue rfl rfl admitted ?_ ?_ gens ?_
    (fun other member _ => mem_of_mem_eraseIdx member) (fun other member here => ?_)
    (fun _ member _ => member) (fun batch member here => ?_) sound.distinct
  · rw [counters.1]
    exact ⟨le_rfl, sound.requests⟩
  · rw [counters.2]
    exact ⟨le_rfl, sound.generations⟩
  · rw [counters.1, counters.2]
    simp only [Event.post, if_pos]
    exact serves.cancel (sound.orderly.exact _) admitted placed
  · rw [← here]
    exact sound.kept _ (cancelIn_within _ _ _) (mem_of_mem_eraseIdx member)
  · obtain ⟨generation, rest, front, active, owned⟩ := sound.batches batch member
    rw [here] at front
    obtain ⟨left, kept⟩ :=
      cancelIn_front ticket.generationId ticket.requestId rest active
    rw [front, kept]
    exact ⟨generation, left, rfl, active, owned⟩

theorem closed :
    Sound admissions { sys with
      sequencer := close sys.sequencer
      log := sys.log ++ [.dispersed] } where
  orderly := sound.orderly.snoc trivial
  requests := sound.requests
  generations := sound.generations
  serves queue := by
    rw [account_snoc, generations_close]
    exact (sound.serves queue).close (sound.orderly.exact queue)
  tickets ticket member := by
    rw [account_snoc, generations_close]
    refine sound.kept _ (fun generation there => ?_) member
    exact ⟨generation, (mem_filter.mp there).1, rfl, fun _ here => here⟩
  batches batch member := by
    obtain ⟨generation, rest, front, active, owned⟩ := sound.batches batch member
    rw [generations_close, front, filter_cons_of_pos active]
    exact ⟨generation, _, rfl, active, owned⟩
  distinct := sound.distinct

omit [LawfulEqOrd K] in
theorem mono {later : Nat} (more : admissions ≤ later) : Sound later sys :=
  { sound with
    requests := Nat.le_trans sound.requests more
    generations := Nat.le_trans sound.generations more }

omit [LawfulEqOrd K] in
theorem next_request (room : admissions + 1 < 2 ^ 64) :
    (sys.sequencer.nextRequestId + 1).toNat = sys.sequencer.nextRequestId.toNat + 1 := by
  have := sound.requests
  rw [UInt64.toNat_add, UInt64.toNat_one]
  omega

omit [LawfulEqOrd K] in
theorem next_generation (room : admissions + 1 < 2 ^ 64) :
    (sys.sequencer.nextGenerationId + 1).toNat = sys.sequencer.nextGenerationId.toNat + 1 := by
  have := sound.generations
  rw [UInt64.toNat_add, UInt64.toNat_one]
  omega

omit [LawfulEqOrd K] in
/-- A request that is refused for lack of room has used up an id. -/
theorem refused (room : admissions + 1 < 2 ^ 64) :
    Sound (admissions + 1) { sys with
      sequencer := { sys.sequencer with
        nextRequestId := sys.sequencer.nextRequestId + 1 } } :=
  { sound with
    requests := by
      have := sound.requests
      rw [sound.next_request room]
      omega
    generations := Nat.le_succ_of_le sound.generations
    serves := fun queue => by
      rw [sound.next_request room]
      exact (sound.serves queue).mono (Nat.le_succ _) le_rfl }

omit [LawfulEqOrd K] in
/-- A request is pushed into a generation at the end of its queue. -/
theorem pushed (room : admissions + 1 < 2 ^ 64)
    {sequencer : MutationSequencerState K C R} {earlier : List (MutationGeneration C R)}
    (last : MutationGeneration C R) (entry : MutationEntry R)
    (number : entry.id = sys.sequencer.nextRequestId)
    (counted : sequencer.nextRequestId = sys.sequencer.nextRequestId + 1) (generations :
      sys.sequencer.nextGenerationId.toNat ≤ sequencer.nextGenerationId.toNat ∧
        sequencer.nextGenerationId.toNat ≤ admissions + 1)
    (gens : ∀ other, sequencer.generations other =
      if queue = other then earlier ++ [last.push entry] else sys.sequencer.generations other)
    (idle : last.active = false) (shape : sys.sequencer.generations queue = earlier ++ [last] ∨
      sys.sequencer.generations queue = earlier ∧ last.requests = [])
    (numbered : ∀ generation ∈ earlier ++ [last],
      generation.id.toNat < sequencer.nextGenerationId.toNat)
    (lined : Lined (earlier ++ [last.push entry])) :
    Sound (admissions + 1) { sys with
      sequencer
      tickets := sys.tickets ++ [⟨queue, entry.id, last.id, entry.request⟩]
      log := sys.log ++ [.joined queue entry.id ⟨last.compatibility, entry.request⟩] } := by
  have serves := sound.serves queue
  have exact_ := sound.orderly.exact queue
  have fresh : entry.id ∉ (account queue sys.log).joinedIds := fun member => by
    have issued := serves.issued _ member
    rw [number] at issued
    omega
  have line : waiting (sys.sequencer.generations queue) = waiting (earlier ++ [last]) := by
    rcases shape with same | ⟨same, empty⟩
    · rw [same]
    · rw [same, waiting_append, waiting_idle idle]
      simp [MutationGeneration.admissions, empty, waiting]
  have old : ∀ generation, generation.active = true →
      (generation ∈ sys.sequencer.generations queue ↔ generation ∈ earlier) := by
    intro generation active
    rcases shape with same | ⟨same, -⟩
    · rw [same, mem_append, mem_singleton, or_iff_left]
      rintro rfl
      exact absurd (idle.symm.trans active) Bool.false_ne_true
    · rw [same]
  have within : ∀ generation ∈ earlier ++ [last], ∀ other ∈ generation.requests,
      ∃ before ∈ sys.sequencer.generations queue, before.id = generation.id ∧
        other ∈ before.requests := by
    intro generation member other here
    rcases shape with same | ⟨same, empty⟩
    · exact ⟨generation, by rwa [same], rfl, here⟩
    · rcases mem_append.mp member with before | new
      · exact ⟨generation, by rwa [same], rfl, here⟩
      · rw [mem_singleton.mp new, empty] at here
        cases here
  -- The new entry is the only one with its id.
  have alone : ∀ generation ∈ earlier ++ [last.push entry], ∀ other ∈ generation.requests,
      (other = entry ∧ generation.id = last.id) ∨
        ∃ before ∈ sys.sequencer.generations queue, before.id = generation.id ∧
          other ∈ before.requests := by
    intro generation member other here
    rcases mem_append.mp member with before | new
    · exact .inr (within generation (mem_append_left _ before) other here)
    · rw [mem_singleton.mp new] at here ⊢
      rcases mem_append.mp here with inLast | isNew
      · exact .inr (within last (mem_append_right _ mem_cons_self) other inLast)
      · exact .inl ⟨mem_singleton.mp isNew, rfl⟩
  refine sound.change queue rfl rfl fresh ?_ generations gens ?_
    (fun ticket member different => ?_) (fun ticket member here => ?_) (fun _ member _ => member)
    (fun batch member here => ?_) sound.distinct
  · have := sound.requests
    dsimp only
    rw [counted, sound.next_request room]
    omega
  · dsimp only
    rw [counted, sound.next_request room]
    simp only [Event.post, if_pos]
    exact serves.join exact_ (by rw [number]) idle line old numbered lined
  · rcases mem_append.mp member with before | new
    · exact before
    · rw [mem_singleton.mp new] at different
      exact absurd rfl different
  · rcases mem_append.mp member with before | new
    · obtain ⟨admitted, placed⟩ := sound.tickets ticket before
      rw [here] at admitted placed
      refine ⟨Event.joinedIds_post _ _ _ _ admitted, fun generation there other inside same => ?_⟩
      rcases alone generation there other inside with ⟨rfl, -⟩ | ⟨before, was, id, also⟩
      · rw [same] at fresh
        exact absurd admitted fresh
      · rw [← id]
        exact placed before was other also same
    · rw [mem_singleton.mp new]
      refine ⟨by simp [Event.post, Account.joinedIds], fun generation there other inside same => ?_⟩
      rcases alone generation there other inside with ⟨-, id⟩ | ⟨before, was, -, also⟩
      · exact id
      · have issued := serves.entry_issued exact_ was other also
        have equal : other.id = sys.sequencer.nextRequestId := same.trans number
        rw [equal] at issued
        omega
  · obtain ⟨generation, rest, front, active, owned⟩ := sound.batches batch member
    rw [here] at front
    have inEarlier := (old generation active).mp (by rw [front]; exact mem_cons_self)
    obtain ⟨first, others, rfl⟩ := exists_cons_of_ne_nil (ne_nil_of_mem inEarlier)
    have same : first = generation := by
      rcases shape with same | ⟨same, -⟩
      · rw [same, cons_append] at front
        exact (cons.inj front).1
      · rw [same] at front
        exact (cons.inj front).1
    rw [same]
    exact ⟨generation, _, rfl, active, owned⟩

/-- Where a request goes: to the last generation, or to a new one. -/
theorem assigned (room : admissions + 1 < 2 ^ 64) [DecidableEq C]
    {compatibility : C} (ingress : MutationIngress) (request : R) {items responseBytes now : Nat}
    {generationId : UInt64} {state : MutationSequencerState K C R}
    (itemsFit : items ≤ generationMaxItems) (bytesFit : responseBytes ≤ generationMaxResponseBytes)
    (few : totalRequests (sys.sequencer.generations queue) < mutationMaxRequestsPerQueue)
    (assigned : assign { sys.sequencer with
      nextRequestId := sys.sequencer.nextRequestId + 1 } queue compatibility items responseBytes
        now = some (generationId, state)) :
    ∃ generations, pushInto generationId
        ⟨sys.sequencer.nextRequestId, request, ingress, items, responseBytes⟩
        (state.generations queue) = some generations ∧
      Sound (admissions + 1) { sys with
        sequencer := { state with queues := state.queues.insert queue ⟨generations⟩ }
        tickets := sys.tickets ++
          [⟨queue, sys.sequencer.nextRequestId, generationId, request⟩]
        log := sys.log ++ [.joined queue sys.sequencer.nextRequestId ⟨compatibility,
          request⟩] } := by
  have lined := (sound.serves queue).lined
  rw [assign] at assigned
  split at assigned
  · next last chosen =>
    cases assigned
    obtain ⟨isLast, attaches⟩ := Option.filter_eq_some_iff.mp chosen
    obtain ⟨earlier, shape⟩ := getLast?_eq_some_iff.mp isLast
    have shape : sys.sequencer.generations queue = earlier ++ [last] := shape
    rw [shape] at lined few
    simp only [MutationGeneration.canAttach, Bool.and_eq_true, Bool.not_eq_true',
      decide_eq_true_eq] at attaches
    obtain ⟨⟨⟨⟨idle, rfl⟩, fewRequests⟩, itemsRoom⟩, bytesRoom⟩ := attaches
    have absent : last.id ∉ earlier.map MutationGeneration.id := by
      have nodup := lined.nodup
      rw [map_append, map_singleton, nodup_append] at nodup
      exact fun there => nodup.2.2 _ there _ (mem_singleton_self _) rfl
    have valid := lined.valid last (mem_append_right _ mem_cons_self)
    refine ⟨_, shape ▸ pushInto_last rfl absent, sound.pushed room last
      ⟨sys.sequencer.nextRequestId, request, ingress, items, responseBytes⟩ rfl rfl
      ⟨le_rfl, Nat.le_succ_of_le sound.generations⟩ (fun other => generations_insert queue other)
      idle (.inl shape) (fun generation member => ?_) (lined_push (fun other member => ?_)
        lined.nodup lined.idle lined.few few (valid.push_valid fewRequests itemsRoom bytesRoom))⟩
    · exact (sound.serves queue).numbered generation (shape ▸ member)
    · exact lined.valid other (mem_append_left _ member)
  · next none =>
    rw [openGeneration] at assigned
    split at assigned
    · cases assigned
    · next fewGenerations =>
      cases assigned
      have fewer : (sys.sequencer.generations queue).length < mutationMaxGenerationsPerQueue :=
        Nat.lt_of_not_le fewGenerations
      have numbered := (sound.serves queue).numbered
      have absent : sys.sequencer.nextGenerationId ∉
          (sys.sequencer.generations queue).map MutationGeneration.id := by
        intro there
        obtain ⟨generation, member, same⟩ := mem_map.mp there
        have earlier := numbered generation member
        rw [same] at earlier
        omega
      have later : sys.sequencer.nextGenerationId.toNat <
          (sys.sequencer.nextGenerationId + 1).toNat := by
        rw [sound.next_generation room]
        exact Nat.lt_succ_self _
      refine ⟨sys.sequencer.generations queue ++ [MutationGeneration.push
          ⟨sys.sequencer.nextGenerationId, compatibility, false, 0, 0, now, []⟩
          ⟨sys.sequencer.nextRequestId, request, ingress, items, responseBytes⟩],
        ?_, sound.pushed room
        ⟨sys.sequencer.nextGenerationId, compatibility, false, 0, 0, now, []⟩
        ⟨sys.sequencer.nextRequestId, request, ingress, items, responseBytes⟩ rfl rfl
        ⟨Nat.le_of_lt later, ?_⟩ (fun other => ?_) rfl (.inr ⟨rfl, rfl⟩)
        (forall_mem_snoc (fun generation before => ?_) later)
        (lined_push lined.valid ?_ (fun other member => ?_) ?_ ?_
          (MutationGeneration.Sized.push_valid ⟨rfl, rfl⟩ (Nat.zero_lt_succ 7) ?_ ?_))⟩
      · refine (congrArg _ ((generations_insert queue queue).trans (if_pos rfl))).trans ?_
        exact pushInto_last rfl absent
      · have := sound.generations
        dsimp only
        rw [sound.next_generation room]
        omega
      · refine (generations_insert queue other).trans ?_
        split
        · rfl
        · next different => exact (generations_insert queue other).trans (if_neg different)
      · exact Nat.lt_trans (numbered generation before) later
      · rw [map_append, map_singleton]
        refine nodup_append.mpr ⟨lined.nodup, by simp, fun one there two new => ?_⟩
        rw [mem_singleton.mp new]
        rintro rfl
        exact absent there
      · cases gens : sys.sequencer.generations queue with
        | nil =>
          rw [gens] at member
          cases member
        | cons first rest =>
          rw [gens, cons_append, tail_cons] at member
          rcases mem_append.mp member with before | new
          · exact lined.idle other (by rw [gens]; exact before)
          · rw [mem_singleton.mp new]
      · rw [length_append]
        exact fewer
      · rw [totalRequests_append]
        exact few
      · exact (Nat.zero_add items).symm ▸ itemsFit
      · exact (Nat.zero_add responseBytes).symm ▸ bytesFit

/-- An admission never panics. -/
theorem admitted (room : admissions + 1 < 2 ^ 64) [DecidableEq C] (queue : K) (compatibility : C)
    (ingress : MutationIngress) (request : R) (items responseBytes now : Nat) :
    ∃ reply after, perform sys
        (.admitRequest queue compatibility ingress request items responseBytes now) =
      .ok (reply, after) ∧ Sound (admissions + 1) after := by
  rw [perform, admitRequest]
  split
  · exact ⟨_, _, rfl, sound.mono (Nat.le_succ _)⟩
  next fits =>
    rw [Bool.or_eq_true, decide_eq_true_eq, decide_eq_true_eq, not_or, Nat.not_lt,
      Nat.not_lt] at fits
    split
    · exact ⟨_, _, rfl, sound.mono (Nat.le_succ _)⟩
    dsimp only
    split
    · exact ⟨_, _, rfl, sound.refused room⟩
    next few =>
      split
      · exact ⟨_, _, rfl, sound.refused room⟩
      · next generationId state chosen =>
        obtain ⟨generations, pushed, kept⟩ :=
          sound.assigned room ingress request fits.1 fits.2 (Nat.lt_of_not_le few) chosen
        rw [pushed]
        exact ⟨_, _, rfl, kept⟩

/-- Every action succeeds and keeps the agreement, as long as ids are left. -/
theorem performs [DecidableEq C] (action : Action K C R)
    (room : admissions + action.admits < 2 ^ 64) :
    ∃ reply after, perform sys action = .ok (reply, after) ∧
      Sound (admissions + action.admits) after := by
  cases action with
  | admitRequest queue compatibility ingress request items responseBytes now =>
    exact sound.admitted room queue compatibility ingress request items responseBytes now
  | start queue linger now =>
    rw [perform]
    split
    · exact ⟨_, _, rfl, sound⟩
    · next batch sequencer started =>
      refine ⟨_, _, rfl, ?_⟩
      rw [startGenerationAfter] at started
      split at started
      · cases started
      next generation rest front =>
        rw [System.front, front]
        split at started
        · cases started
        next idle =>
          split at started
          · cases started
          · cases started
            exact sound.started front (Bool.eq_false_iff.mpr idle)
  | finish index =>
    rw [perform]
    split
    · exact ⟨_, _, rfl, sound⟩
    · next batch found => exact ⟨_, _, rfl, sound.finished found⟩
  | dropTicket index =>
    rw [perform]
    split
    · exact ⟨_, _, rfl, sound⟩
    · next ticket found => exact ⟨_, _, rfl, sound.dropped found⟩
  | close => exact ⟨_, _, rfl, sound.closed⟩

end Sound

/-! ## Whole runs -/

/-- What the sequencer promises in every state. -/
structure Sequenced (sys : System K C R) : Prop where
  /-- Only the front generation of a queue can be active. -/
  front_active : ∀ queue, ∀ generation ∈ (sys.sequencer.generations queue).tail,
    generation.active = false
  /-- Every generation is within its limits and has only requests of its compatibility. -/
  generations : ∀ queue, ∀ generation ∈ sys.sequencer.generations queue, generation.Valid ∧
    ∀ item ∈ generation.admissions, item ∈ (account queue sys.log).joined
  bounded : ∀ queue,
    (sys.sequencer.generations queue).length ≤ mutationMaxGenerationsPerQueue ∧
      totalRequests (sys.sequencer.generations queue) ≤ mutationMaxRequestsPerQueue
  /-- The batches and what waits behind them are the admitted requests, without those withdrawn
  before their generation started. -/
  order : ∀ queue, (account queue sys.log).batches.flatten ++
    waiting (sys.sequencer.generations queue) = (account queue sys.log).survivors
  once : ∀ queue, (account queue sys.log).joinedIds.Nodup
  /-- A batch starts when no other batch of its queue is under way. -/
  turns : Orderly sys.log
  /-- A batch has the requests that its start took from the queue. -/
  batches : ∀ batch ∈ sys.batches, (account batch.queue sys.log).busy = true ∧
    (account batch.queue sys.log).batches.getLast?.map
      (List.map fun item => item.2.request) = some batch.requests

variable {sys : System K C R}

theorem Sound.sequenced {admissions : Nat} (sound : Sound admissions sys) :
    Sequenced sys where
  front_active queue := (sound.serves queue).lined.idle
  generations queue generation member :=
    ⟨(sound.serves queue).lined.valid generation member,
      (sound.serves queue).joined (sound.orderly.exact queue) member⟩
  bounded queue := ⟨(sound.serves queue).lined.few, (sound.serves queue).lined.total⟩
  order queue := by
    rw [← (sound.serves queue).line]
    exact (sound.orderly.exact queue).split
  once queue := (sound.orderly.exact queue).nodup
  turns := sound.orderly
  batches batch member := by
    obtain ⟨generation, rest, front, active, owned⟩ := sound.batches batch member
    have serves := sound.serves batch.queue
    rw [front] at serves
    refine ⟨serves.busy.mpr ⟨generation, mem_cons_self, active⟩, ?_⟩
    rw [serves.running generation mem_cons_self active, owned]
    simp [MutationGeneration.admissions]

/-- How many requests a run asks to admit. -/
def admits (actions : List (Action K C R)) : Nat := (actions.map Action.admits).sum

/-- Along every run with fewer admissions than ids can number, the batches of a queue are its
requests in the order of admission, without those that were withdrawn in time. -/
theorem reaches_sequenced [LawfulEqOrd K] [DecidableEq C] {actions : List (Action K C R)}
    {sys : System K C R} (run : Run Step .initial actions sys)
    (few : admits actions < 2 ^ 64) : Sequenced sys := by
  have sound := run.history_invariant
    (P := fun past sys => admits past < 2 ^ 64 → Sound (admits past) sys)
    (fun _ => sound_initial) (fun past before action after kept taken few => by
      have more : admits (past ++ [action]) = admits past + action.admits := by simp [admits]
      rw [more] at few ⊢
      obtain ⟨reply, performed⟩ := taken
      obtain ⟨reply', after', performed', sound⟩ := (kept (by omega)).performs action few
      rw [performed] at performed'
      cases performed'
      exact sound)
  exact (sound few).sequenced

/-- Four requests in two generations, and a fifth one. The second ticket is dropped in time, the
first one after its generation has started. The fifth request waits when the sequencer is closed. -/
def twoBatches : List (Action String Nat Nat) :=
  [.admitRequest "q" 0 .direct 10 1 1 0, .admitRequest "q" 0 .direct 11 1 1 0,
    .admitRequest "q" 1 .keyedPermitLive 12 1 1 0, .admitRequest "q" 1 .direct 13 1 1 0,
      .dropTicket 1,
    .start "q" 0 1, .dropTicket 0, .finish 0, .start "q" 5 9, .admitRequest "q" 1 .direct 14 1 1 9,
    .close]

theorem reaches_sequenced_twoBatches : ∃ sys, Run Step System.initial twoBatches sys ∧
    admits twoBatches < 2 ^ 64 ∧
      (account "q" sys.log).joined =
        [(0, ⟨0, 10⟩), (1, ⟨0, 11⟩), (2, ⟨1, 12⟩), (3, ⟨1, 13⟩), (4, ⟨1, 14⟩)] ∧
      (account "q" sys.log).batches = [[(0, ⟨0, 10⟩)], [(2, ⟨1, 12⟩), (3, ⟨1, 13⟩)]] ∧
      Sequenced sys := by
  have computed : (runAll (attempt perform) System.initial twoBatches).map
      (fun sys => ((account "q" sys.log).joined, (account "q" sys.log).batches)) =
      some ([(0, ⟨0, 10⟩), (1, ⟨0, 11⟩), (2, ⟨1, 12⟩), (3, ⟨1, 13⟩), (4, ⟨1, 14⟩)],
        [[(0, ⟨0, 10⟩)], [(2, ⟨1, 12⟩), (3, ⟨1, 13⟩)]]) := by decide +kernel
  obtain ⟨sys, reached, seen⟩ := Option.map_eq_some_iff.mp computed
  have run := runAll_run (attempt_performs _) reached
  obtain ⟨joined, batches⟩ := Prod.mk.inj seen
  have few : admits twoBatches < 2 ^ 64 := by decide
  exact ⟨sys, run, few, joined, batches, reaches_sequenced run few⟩

/-! ## Counters that wrap -/

section Wrapping

def entryOf (id : UInt64) (request : Nat) : MutationEntry Nat := ⟨id, request, .direct, 0, 0⟩

/-- The first generation of a queue has started with one request. Both counters stand at `id`. -/
structure Started (id : UInt64) (sys : System String Nat Nat) : Prop where
  isOpen : sys.sequencer.closed = false
  nextRequestId : sys.sequencer.nextRequestId = id
  nextGenerationId : sys.sequencer.nextGenerationId = id
  queue : sys.sequencer.queues["q"]? =
    some ⟨[⟨0, 0, true, 0, 0, 0, [entryOf 0 0]⟩]⟩
  tickets : sys.tickets.length = 1

/-- The generations after one more admission, of which the last may be the first one. -/
def System.opened (sys : System String Nat Nat) (generations : List (MutationGeneration Nat Nat)) :
    System String Nat Nat :=
  let id := sys.sequencer.nextRequestId
  { sys with
    sequencer := ⟨false, id + 1, id + 1,
      (sys.sequencer.queues.insert "q" ⟨[⟨0, 0, true, 0, 0, 0, [entryOf 0 0]⟩,
        ⟨id, 0, false, 0, 0, 0, []⟩]⟩).insert "q" ⟨generations⟩⟩
    tickets := sys.tickets ++ [⟨"q", id, id, 0⟩]
    log := sys.log ++ [.joined "q" id ⟨0, 0⟩] }

theorem opened_generations (sys : System String Nat Nat)
    (generations : List (MutationGeneration Nat Nat)) :
    (sys.opened generations).sequencer.generations "q" = generations := by
  simp [opened, MutationSequencerState.generations]

theorem Started.admits {id : UInt64} {sys : System String Nat Nat} (started : Started id sys)
    {generations : List (MutationGeneration Nat Nat)} (pushed : pushInto id (entryOf id 0)
      [⟨0, 0, true, 0, 0, 0, [entryOf 0 0]⟩, ⟨id, 0, false, 0, 0, 0, []⟩] = some generations) :
    attempt perform sys (.admitRequest "q" 0 .direct 0 0 0 0) = some (sys.opened generations) := by
  rw [entryOf, entryOf] at pushed
  simp [attempt, perform, admitRequest, MutationSequencerState.generations, started.queue,
    started.isOpen, started.nextRequestId, started.nextGenerationId, totalRequests,
    MutationSequencerState.assign, canAttach, MutationSequencerState.openGeneration,
    generationMaxItems, generationMaxResponseBytes, mutationMaxRequestsPerQueue,
    mutationMaxGenerationsPerQueue, opened, expectSome, Except.toOption, bind, Except.bind,
    Option.filter, entryOf, pushed]

omit [DecidableEq K] in
theorem step_dropTicket [DecidableEq C] (found : sys.tickets[index]? = some ticket) :
    Step sys (.dropTicket index) { sys with
      sequencer := dropTicket sys.sequencer ticket
      tickets := sys.tickets.eraseIdx index
      log := sys.log ++ [.left ticket.queue ticket.requestId] } :=
  ⟨.done, by rw [perform, found]⟩

/-- A request that opens a generation and is dropped uses up one id of each kind. -/
theorem Started.visited {id : UInt64} {sys : System String Nat Nat} (started : Started id sys)
    (nonzero : id ≠ 0) : ∃ actions after, Run Step sys actions after ∧ Started (id + 1) after := by
  have admitted := started.admits (by
    rw [pushInto, if_neg nonzero.symm, pushInto, if_pos rfl]
    rfl)
  have ticket : (sys.tickets ++ [⟨"q", id, id, 0⟩])[1]? = some ⟨"q", id, id, 0⟩ := by
    rw [getElem?_append_right (by rw [started.tickets]), started.tickets]
    rfl
  rw [opened, started.nextRequestId] at admitted
  refine ⟨_, _, .cons (attempt_performs _ _ _ _ admitted) (.single (step_dropTicket ticket)), ?_⟩
  have left : cancelIn id id [⟨0, 0, true, 0, 0, 0, [entryOf 0 0]⟩,
      push ⟨id, 0, false, 0, 0, 0, []⟩ (entryOf id 0)] =
      [⟨0, 0, true, 0, 0, 0, [entryOf 0 0]⟩] := by
    simp [cancelIn, nonzero.symm, push, cancel, withdraw, entryOf]
  constructor
  all_goals simp [dropTicket, left, MutationSequencerState.replace]
  rw [eraseIdx_append_of_length_le]
  all_goals simp [started.tickets]

/-- After 2 ^ 64 admissions a request gets into a generation that has started, and leaves an empty
one behind it. -/
theorem wrapped_id_joins_started : ∃ (actions : List (Action String Nat Nat))
    (sys : System String Nat Nat), Run Step .initial actions sys ∧
      sys.sequencer.generations "q" =
        [⟨0, 0, true, 0, 0, 0, [entryOf 0 0, entryOf 0 0]⟩, ⟨0, 0, false, 0, 0, 0, []⟩] ∧
      ¬ Sequenced sys := by
  have computed : (runAll (attempt perform) System.initial
      [.admitRequest "q" 0 .direct 0 0 0 0, .start "q" 0 0]).map (fun sys =>
      decide (sys.sequencer.closed = false ∧ sys.sequencer.nextRequestId = 1 ∧
        sys.sequencer.nextGenerationId = 1 ∧ sys.sequencer.queues["q"]? =
          some ⟨[⟨0, 0, true, 0, 0, 0, [entryOf 0 0]⟩]⟩ ∧ sys.tickets.length = 1)) =
      some true := by decide +kernel
  obtain ⟨first, reached, seen⟩ := Option.map_eq_some_iff.mp computed
  obtain ⟨isOpen, request, generation, queue, tickets⟩ := of_decide_eq_true seen
  obtain ⟨visits, middle, between, started⟩ := Run.wraps (fun _ _ => Started.visited)
    (Started.mk isOpen request generation queue tickets)
  have pushed : pushInto 0 (entryOf 0 0)
      [⟨0, 0, true, 0, 0, 0, [entryOf 0 0]⟩, ⟨0, 0, false, 0, 0, 0, []⟩] =
      some [⟨0, 0, true, 0, 0, 0, [entryOf 0 0, entryOf 0 0]⟩, ⟨0, 0, false, 0, 0, 0, []⟩] := rfl
  refine ⟨_, _, ((runAll_run (attempt_performs _) reached).append between).append
    (.single (attempt_performs _ _ _ _ (started.admits pushed))), opened_generations ..,
    fun sequenced => ?_⟩
  have valid := (sequenced.generations "q" ⟨0, 0, false, 0, 0, 0, []⟩
    (by simp [opened_generations])).1
  exact valid.nonempty rfl

end Wrapping

end MutationSequencer
