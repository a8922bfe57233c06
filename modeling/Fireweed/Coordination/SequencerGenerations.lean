import Fireweed.Coordination.Sequencer

/-!
# Generations of a queue

The generations of a queue are its line cut into pieces, of which only the front one
may have started. Pushing, starting, ending, cancelling and closing keep this shape
and the totals of every generation, and change the line at its ends or drop one
request of it.
-/

namespace MutationSequencer

open BatchLines List
open Checked (forall_mem_snoc)

variable {C R : Type}

/-- The totals of a generation are those of its requests. -/
structure MutationGeneration.Sized (generation : MutationGeneration C R) : Prop where
  items : generation.items = (generation.requests.map MutationEntry.items).sum
  responseBytes :
    generation.responseBytes = (generation.requests.map MutationEntry.responseBytes).sum

structure MutationGeneration.Valid (generation : MutationGeneration C R) : Prop
    extends generation.Sized where
  nonempty : generation.requests ≠ []
  few : generation.requests.length ≤ claimGenerationMaxRequests
  itemsFit : generation.items ≤ generationMaxItems
  bytesFit : generation.responseBytes ≤ generationMaxResponseBytes

/-- The requests in generations that have not started. -/
def waiting (generations : List (MutationGeneration C R)) : List (UInt64 × Admission C R) :=
  (generations.filter fun generation => !generation.active).flatMap MutationGeneration.admissions

/-- The generations of a queue: only the front one may have started. -/
structure Lined (generations : List (MutationGeneration C R)) : Prop where
  valid : ∀ generation ∈ generations, generation.Valid
  nodup : (generations.map MutationGeneration.id).Nodup
  idle : ∀ generation ∈ generations.tail, generation.active = false
  few : generations.length ≤ mutationMaxGenerationsPerQueue
  total : totalRequests generations ≤ mutationMaxRequestsPerQueue

/-- Every request of the first list is in the second one, in a generation of the same id. -/
def Within (generations others : List (MutationGeneration C R)) : Prop :=
  ∀ generation ∈ generations, ∃ other ∈ others, other.id = generation.id ∧
    ∀ entry ∈ generation.requests, entry ∈ other.requests

theorem lined_nil : Lined ([] : List (MutationGeneration C R)) :=
  ⟨by simp, by simp, by simp, by simp, by simp [totalRequests]⟩

theorem waiting_append (generations more : List (MutationGeneration C R)) :
    waiting (generations ++ more) = waiting generations ++ waiting more := by
  simp [waiting]

variable {rest : List (MutationGeneration C R)} {generation : MutationGeneration C R}

theorem waiting_active (active : generation.active = true) :
    waiting (generation :: rest) = waiting rest := by
  simp [waiting, active]

theorem waiting_idle (idle : generation.active = false) :
    waiting (generation :: rest) = generation.admissions ++ waiting rest := by
  simp [waiting, idle]

theorem totalRequests_append (generations more : List (MutationGeneration C R)) :
    totalRequests (generations ++ more) = totalRequests generations + totalRequests more := by
  simp [totalRequests]

open MutationGeneration

section Pushing

variable {generation : MutationGeneration C R} {entry : MutationEntry R}
  {generations : List (MutationGeneration C R)}

/-- The entry goes to the generation at the end. -/
theorem pushInto_last {id : UInt64} (named : generation.id = id)
    (absent : id ∉ generations.map MutationGeneration.id) :
    pushInto id entry (generations ++ [generation]) =
      some (generations ++ [generation.push entry]) := by
  induction generations with
  | nil => simp [pushInto, named]
  | cons first rest ih =>
    rw [map_cons, mem_cons, not_or] at absent
    rw [cons_append, pushInto, if_neg (Ne.symm absent.1), ih absent.2]
    rfl

theorem MutationGeneration.Sized.push (sized : generation.Sized) (entry : MutationEntry R) :
    (generation.push entry).Sized :=
  ⟨by simp [MutationGeneration.push, sized.items],
    by simp [MutationGeneration.push, sized.responseBytes]⟩

theorem MutationGeneration.Sized.push_valid (sized : generation.Sized)
    (room : generation.requests.length < claimGenerationMaxRequests)
    (items : generation.items + entry.items ≤ generationMaxItems)
    (bytes : generation.responseBytes + entry.responseBytes ≤ generationMaxResponseBytes) :
    (generation.push entry).Valid where
  toSized := sized.push entry
  nonempty := by simp [MutationGeneration.push]
  few := by simpa [MutationGeneration.push] using room
  itemsFit := items
  bytesFit := bytes

theorem admissions_push (generation : MutationGeneration C R) (entry : MutationEntry R) :
    (generation.push entry).admissions =
      generation.admissions ++ [(entry.id, ⟨generation.compatibility, entry.request⟩)] := by
  simp [push, admissions]

theorem waiting_push (idle : generation.active = false) :
    waiting (generations ++ [generation.push entry]) = waiting (generations ++ [generation]) ++
      [(entry.id, ⟨generation.compatibility, entry.request⟩)] := by
  have still : (generation.push entry).active = false := idle
  rw [waiting_append, waiting_append, waiting_idle still, waiting_idle idle, admissions_push]
  simp [waiting]

theorem lined_push (valid : ∀ other ∈ generations, other.Valid)
    (nodup : ((generations ++ [generation]).map MutationGeneration.id).Nodup)
    (idle : ∀ other ∈ (generations ++ [generation]).tail, other.active = false)
    (few : (generations ++ [generation]).length ≤ mutationMaxGenerationsPerQueue)
    (room : totalRequests (generations ++ [generation]) < mutationMaxRequestsPerQueue)
    (pushed : (generation.push entry).Valid) : Lined (generations ++ [generation.push entry]) where
  valid := forall_mem_snoc valid pushed
  nodup := by simpa [MutationGeneration.push] using nodup
  idle other member := by
    cases generations with
    | nil => cases member
    | cons first rest =>
      rw [cons_append, tail_cons] at idle member
      rcases mem_append.mp member with earlier | last
      · exact idle other (mem_append_left _ earlier)
      · rw [mem_singleton.mp last]
        exact idle generation (mem_append_right _ mem_cons_self)
  few := by simpa using few
  total := by
    simp only [totalRequests, map_append, sum_append, map_cons, map_nil, sum_cons, sum_nil,
      MutationGeneration.push, length_append, length_cons, length_nil] at room ⊢
    omega

end Pushing

section Lists

variable {generation : MutationGeneration C R} {rest generations : List (MutationGeneration C R)}

theorem Lined.sublist (lined : Lined generations) (kept : rest.Sublist generations) :
    Lined rest where
  valid other member := lined.valid other (kept.subset member)
  nodup := lined.nodup.sublist (kept.map _)
  idle other member := lined.idle other (kept.tail.subset member)
  few := Nat.le_trans kept.length_le lined.few
  total := Nat.le_trans ((kept.map _).sum_le_sum fun _ _ => Nat.zero_le _) lined.total

theorem Lined.start (lined : Lined (generation :: rest)) :
    Lined ({ generation with active := true } :: rest) where
  valid other member := by
    rcases mem_cons.mp member with rfl | later
    · have valid := lined.valid generation mem_cons_self
      exact ⟨⟨valid.items, valid.responseBytes⟩, valid.nonempty, valid.few, valid.itemsFit,
        valid.bytesFit⟩
    · exact lined.valid other (mem_cons_of_mem _ later)
  nodup := lined.nodup
  idle := lined.idle
  few := lined.few
  total := lined.total

end Lists

variable {earlier : List (MutationGeneration C R)}

section Cancelling

variable {generation : MutationGeneration C R} {generations : List (MutationGeneration C R)}
  {generationId requestId : UInt64}

/-- The request goes, or is not there. -/
theorem withdraw_cases (generation : MutationGeneration C R) (requestId : UInt64) :
    (generation.withdraw requestId = generation ∧
      ∀ entry ∈ generation.requests, entry.id ≠ requestId) ∨
    ∃ earlier entry later, generation.requests = earlier ++ entry :: later ∧
      entry.id = requestId ∧ generation.withdraw requestId = { generation with
        items := generation.items - entry.items
        responseBytes := generation.responseBytes - entry.responseBytes
        requests := earlier ++ later } := by
  rw [withdraw]
  cases found : generation.requests.find? fun request => request.id = requestId with
  | none =>
    refine .inl ⟨rfl, fun entry member same => ?_⟩
    have none := find?_eq_none.mp found entry member
    exact none (decide_eq_true same)
  | some entry =>
    obtain ⟨same, earlier, later, split, before⟩ := find?_eq_some_iff_append.mp found
    refine .inr ⟨earlier, entry, later, split, of_decide_eq_true same, ?_⟩
    have erased : generation.requests.eraseP (fun request => request.id = requestId) =
        earlier ++ later := by
      rw [split, eraseP_append_right _ fun other member => by simpa using before other member,
        eraseP_cons, same]
      rfl
    rw [erased]

theorem MutationGeneration.Valid.withdraw (valid : generation.Valid)
    (left : (generation.withdraw requestId).requests ≠ []) :
    (generation.withdraw requestId).Valid := by
  rcases withdraw_cases generation requestId with ⟨same, -⟩
    | ⟨earlier, entry, later, split, -, gone⟩
  · rw [same]
    exact valid
  · have items := valid.items
    have bytes := valid.responseBytes
    have few := valid.few
    have itemsFit := valid.itemsFit
    have bytesFit := valid.bytesFit
    rw [split] at items bytes few
    rw [gone] at left ⊢
    simp only [map_append, map_cons, sum_append, sum_cons, length_append,
      length_cons] at items bytes few
    refine ⟨⟨?_, ?_⟩, left, ?_, ?_, ?_⟩
    · simp only [map_append, sum_append]
      omega
    · simp only [map_append, sum_append]
      omega
    · simp only [length_append]
      omega
    · exact Nat.le_trans (Nat.sub_le ..) itemsFit
    · exact Nat.le_trans (Nat.sub_le ..) bytesFit

/-- Without the request, a generation has the admissions of the others. -/
theorem admissions_withdraw (nodup : (generation.admissions.map Prod.fst).Nodup) :
    (generation.withdraw requestId).admissions =
      generation.admissions.filter fun item => item.1 ∉ [requestId] := by
  rcases withdraw_cases generation requestId with
    ⟨same, absent⟩ | ⟨earlier, entry, later, split, named, gone⟩
  · rw [same]
    refine (filter_eq_self.mpr fun item member => ?_).symm
    obtain ⟨entry, here, rfl⟩ := mem_map.mp member
    simpa using absent entry here
  · rw [gone]
    simp only [admissions, split, map_append, map_cons, map_map] at nodup ⊢
    obtain ⟨-, behind, apart⟩ := nodup_append.mp nodup
    rw [nodup_cons] at behind
    rw [filter_append, filter_cons_of_neg (by simp [named])]
    congr 1
    · refine (filter_eq_self.mpr fun item member => ?_).symm
      obtain ⟨other, here, rfl⟩ := mem_map.mp member
      have differs := apart _ (mem_map_of_mem here) _ mem_cons_self
      simpa [named] using differs
    · refine (filter_eq_self.mpr fun item member => ?_).symm
      obtain ⟨other, here, rfl⟩ := mem_map.mp member
      simp only [mem_singleton, decide_not, Bool.not_eq_true', decide_eq_false_iff_not]
      intro same
      exact behind.1 (mem_map.mpr ⟨other, here, same.trans named.symm⟩)

theorem withdraw_active (generation : MutationGeneration C R) (requestId : UInt64) :
    (generation.withdraw requestId).active = generation.active := by
  rcases withdraw_cases generation requestId with ⟨same, -⟩ | ⟨earlier, entry, later, -, -, gone⟩
  · rw [same]
  · rw [gone]

theorem waiting_cancel (nodup : ((waiting [generation]).map Prod.fst).Nodup) :
    waiting (generation.cancel requestId).toList =
      (waiting [generation]).filter fun item => item.1 ∉ [requestId] := by
  rw [cancel]
  cases active : generation.active with
  | true => simp [waiting, active]
  | false =>
    rw [waiting_idle active, show waiting ([] : List (MutationGeneration C R)) = [] from rfl,
      append_nil] at nodup ⊢
    rw [← admissions_withdraw nodup, if_neg Bool.false_ne_true]
    dsimp only
    split
    · next emptied =>
      simp [waiting, admissions, isEmpty_iff.mp emptied]
    · simp [waiting, withdraw_active, active]

/-- Requests of other ids stay in line. -/
theorem waiting_without
    (absent : ∀ generation ∈ generations, ∀ entry ∈ generation.requests, entry.id ≠ requestId) :
    (waiting generations).filter (fun item => item.1 ∉ [requestId]) = waiting generations := by
  refine filter_eq_self.mpr fun item member => ?_
  obtain ⟨generation, inLine, member⟩ := mem_flatMap.mp member
  obtain ⟨entry, here, rfl⟩ := mem_map.mp member
  simpa using absent generation (mem_filter.mp inLine).1 entry here

/-- Cancelling a request removes it from the line, if it is in no other generation. -/
theorem waiting_cancelIn (nodup : (generations.map MutationGeneration.id).Nodup)
    (apart : ((waiting generations).map Prod.fst).Nodup)
    (placed : ∀ generation ∈ generations, ∀ entry ∈ generation.requests,
      entry.id = requestId → generation.id = generationId) :
    waiting (cancelIn generationId requestId generations) =
      (waiting generations).filter fun item => item.1 ∉ [requestId] := by
  induction generations with
  | nil => rfl
  | cons first rest ih =>
    rw [map_cons, nodup_cons] at nodup
    rw [← singleton_append, waiting_append, map_append] at apart
    obtain ⟨firstApart, restApart, -⟩ := nodup_append.mp apart
    rw [show waiting (first :: rest) = waiting [first] ++ waiting rest from
      waiting_append [first] rest, filter_append, cancelIn]
    split
    · next named =>
      have others : ∀ generation ∈ rest, ∀ entry ∈ generation.requests,
          entry.id ≠ requestId := by
        intro generation member entry here same
        have also := placed generation (mem_cons_of_mem _ member) entry here same
        exact nodup.1 (mem_map.mpr ⟨generation, member, also.trans named.symm⟩)
      rw [waiting_append, waiting_cancel firstApart, waiting_without others]
    · next other =>
      have kept : ∀ generation ∈ [first], ∀ entry ∈ generation.requests,
          entry.id ≠ requestId := by
        intro generation member entry here same
        rw [mem_singleton.mp member] at here
        exact other (placed first mem_cons_self entry here same)
      rw [← singleton_append, waiting_append, ih nodup.2 restApart fun generation member =>
        placed generation (mem_cons_of_mem _ member), waiting_without kept]

variable {left : MutationGeneration C R}

theorem cancel_some (cancelled : generation.cancel requestId = some left) :
    left.id = generation.id ∧ left.active = generation.active ∧
      left.requests.Sublist generation.requests ∧ (generation.Valid → left.Valid) := by
  rw [cancel] at cancelled
  split at cancelled
  · cases cancelled
    exact ⟨rfl, rfl, Sublist.refl _, id⟩
  · dsimp only at cancelled
    split at cancelled
    · cases cancelled
    · next some_ =>
      cases cancelled
      have nonempty : (generation.withdraw requestId).requests ≠ [] := fun empty =>
        some_ (isEmpty_iff.mpr empty)
      refine ⟨?_, withdraw_active generation requestId, ?_, fun valid => valid.withdraw nonempty⟩
      all_goals
        rcases withdraw_cases generation requestId with
          ⟨same, -⟩ | ⟨earlier, entry, later, split, -, gone⟩
      · rw [same]
      · rw [gone]
      · rw [same]
      · rw [gone, split]
        exact (sublist_cons_self entry later).append_left earlier

/-- Only the generation of the id is touched. -/
theorem cancelIn_cases (generationId requestId : UInt64)
    (generations : List (MutationGeneration C R)) :
    cancelIn generationId requestId generations = generations ∨
      ∃ earlier generation later, generations = earlier ++ generation :: later ∧
        cancelIn generationId requestId generations =
          earlier ++ (generation.cancel requestId).toList ++ later := by
  induction generations with
  | nil => exact .inl rfl
  | cons first rest ih =>
    rw [cancelIn]
    split
    · exact .inr ⟨[], first, rest, rfl, rfl⟩
    · rcases ih with same | ⟨earlier, generation, later, split, cancelled⟩
      · exact .inl (congrArg _ same)
      · exact .inr ⟨first :: earlier, generation, later, congrArg _ split, congrArg _ cancelled⟩

/-- A generation may be replaced by a smaller one. -/
theorem Lined.replace {later : List (MutationGeneration C R)}
    (lined : Lined (earlier ++ generation :: later)) (valid : left.Valid)
    (id : left.id = generation.id) (active : left.active = generation.active)
    (smaller : left.requests.length ≤ generation.requests.length) :
    Lined (earlier ++ left :: later) where
  valid other member := by
    rcases mem_append.mp member with before | here
    · exact lined.valid other (mem_append_left _ before)
    · rcases mem_cons.mp here with rfl | after
      · exact valid
      · exact lined.valid other (mem_append_right _ (mem_cons_of_mem _ after))
  nodup := by
    rw [map_append, map_cons, id, ← map_cons, ← map_append]
    exact lined.nodup
  idle other member := by
    have idle := lined.idle
    cases earlier with
    | nil => exact idle other member
    | cons first rest =>
      rw [cons_append, tail_cons] at idle member
      rcases mem_append.mp member with before | here
      · exact idle other (mem_append_left _ before)
      · rcases mem_cons.mp here with rfl | after
        · rw [active]
          exact idle generation (mem_append_right _ mem_cons_self)
        · exact idle other (mem_append_right _ (mem_cons_of_mem _ after))
  few := by simpa using lined.few
  total := by
    have total := lined.total
    simp only [totalRequests, map_append, map_cons, sum_append, sum_cons]
      at total ⊢
    omega

theorem Lined.cancelIn (lined : Lined generations) :
    Lined (cancelIn generationId requestId generations) := by
  rcases cancelIn_cases generationId requestId generations with
    same | ⟨earlier, generation, later, rfl, cancelled⟩
  · rw [same]
    exact lined
  · rw [cancelled]
    cases left : generation.cancel requestId with
    | none =>
      refine lined.sublist ?_
      rw [Option.toList_none, append_nil]
      exact (sublist_cons_self generation later).append_left earlier
    | some left =>
      obtain ⟨id, active, smaller, valid⟩ := cancel_some left
      rw [Option.toList_some, append_assoc, singleton_append]
      exact lined.replace (valid (lined.valid _ (by simp))) id active smaller.length_le

theorem cancelIn_within (generationId requestId : UInt64)
    (generations : List (MutationGeneration C R)) :
    Within (cancelIn generationId requestId generations) generations := by
  intro left member
  rcases cancelIn_cases generationId requestId generations with
    same | ⟨earlier, generation, later, rfl, cancelled⟩
  · rw [same] at member
    exact ⟨left, member, rfl, fun _ here => here⟩
  · rw [cancelled] at member
    rcases mem_append.mp member with member | after
    · rcases mem_append.mp member with before | here
      · exact ⟨left, mem_append_left _ before, rfl, fun _ here => here⟩
      · obtain ⟨id, -, smaller, -⟩ := cancel_some (Option.mem_toList.mp here)
        exact ⟨generation, by simp, id.symm, fun entry here => smaller.subset here⟩
    · exact ⟨left, mem_append_right _ (mem_cons_of_mem _ after), rfl,
        fun _ here => here⟩

/-- A started generation stays as it is. -/
theorem mem_cancelIn_active (active : generation.active = true) :
    generation ∈ cancelIn generationId requestId generations ↔ generation ∈ generations := by
  have same : ∀ first : MutationGeneration C R,
      generation ∈ (first.cancel requestId).toList ↔ generation = first := by
    intro first
    constructor
    · intro member
      obtain ⟨-, unchanged, -⟩ := cancel_some (Option.mem_toList.mp member)
      rw [active] at unchanged
      rw [Option.mem_toList, cancel, if_pos unchanged.symm] at member
      exact (Option.some.inj member).symm
    · rintro rfl
      rw [cancel, if_pos active]
      exact mem_singleton_self _
  induction generations with
  | nil => rfl
  | cons first rest ih =>
    rw [cancelIn]
    split
    · rw [mem_append, mem_cons, same]
    · rw [mem_cons, mem_cons]
      exact or_congr_right ih

theorem cancelIn_front (generationId requestId : UInt64)
    (generations : List (MutationGeneration C R)) (active : generation.active = true) :
    ∃ rest, cancelIn generationId requestId (generation :: generations) = generation :: rest := by
  rw [cancelIn]
  split
  · rw [cancel, if_pos active]
    exact ⟨generations, rfl⟩
  · exact ⟨_, rfl⟩

end Cancelling

/-! ## A queue and its account -/

/-- The generations of a queue agree with the account of the queue. The bounds are the next ids of
requests and generations. -/
structure Serves (nextRequest nextGeneration : Nat) (account : Account UInt64 (Admission C R))
    (generations : List (MutationGeneration C R)) : Prop where
  lined : Lined generations
  numbered : ∀ generation ∈ generations, generation.id.toNat < nextGeneration
  issued : ∀ id ∈ account.joinedIds, id.toNat < nextRequest
  line : account.line = waiting generations
  running : ∀ generation ∈ generations, generation.active = true →
    account.batches.getLast? = some generation.admissions
  busy : account.busy = true ↔ ∃ generation ∈ generations, generation.active = true

theorem serves_empty : Serves 0 0 .empty ([] : List (MutationGeneration C R)) :=
  ⟨lined_nil, by simp, by simp [Account.joinedIds, Account.empty], rfl, by simp,
    by simp [Account.empty]⟩

namespace Serves

variable {nextRequest nextGeneration : Nat} {account : Account UInt64 (Admission C R)}
  {generations : List (MutationGeneration C R)}

theorem mono (serves : Serves nextRequest nextGeneration account generations)
    {laterRequest laterGeneration : Nat} (requests : nextRequest ≤ laterRequest)
    (more : nextGeneration ≤ laterGeneration) :
    Serves laterRequest laterGeneration account generations :=
  { serves with
    numbered := fun generation member => Nat.lt_of_lt_of_le (serves.numbered generation member) more
    issued := fun id member => Nat.lt_of_lt_of_le (serves.issued id member) requests }

section

variable (serves : Serves nextRequest nextGeneration account generations) (exact_ : account.Exact)
  {generation : MutationGeneration C R} (member : generation ∈ generations)

include serves exact_ member

/-- Every request of a generation was admitted with its compatibility. -/
theorem joined : ∀ item ∈ generation.admissions,
      item ∈ account.joined := by
  intro item here
  have survivor : item ∈ account.survivors := by
    rw [← exact_.split]
    cases active : generation.active with
    | true =>
      have last := mem_of_getLast? (serves.running generation member active)
      exact mem_append_left _ (mem_flatten.mpr ⟨_, last, here⟩)
    | false =>
      refine mem_append_right _ ?_
      rw [serves.line]
      exact mem_flatMap.mpr ⟨generation, mem_filter.mpr ⟨member, by simp [active]⟩, here⟩
  exact (mem_filter.mp survivor).1

theorem entry_issued : ∀ entry ∈ generation.requests,
      entry.id.toNat < nextRequest := by
  intro entry here
  have item := serves.joined exact_ member _ (mem_map_of_mem here)
  exact serves.issued _ (mem_map.mpr ⟨_, item, rfl⟩)

end

section

variable {generation : MutationGeneration C R}
  (serves : Serves nextRequest nextGeneration account (generation :: generations))

include serves

theorem start (exact_ : account.Exact) (idle : generation.active = false) :
    Serves nextRequest nextGeneration
      { account with batches := account.batches ++ [generation.admissions], busy := true }
      ({ generation with active := true } :: generations) where
  lined := serves.lined.start
  numbered other member := by
    rcases mem_cons.mp member with rfl | later
    · exact serves.numbered generation mem_cons_self
    · exact serves.numbered other (mem_cons_of_mem _ later)
  issued := serves.issued
  line := by
    have front := serves.line
    rw [waiting_idle idle] at front
    rw [waiting_active rfl]
    exact (exact_.start front true).2
  running other member active := by
    rcases mem_cons.mp member with rfl | later
    · simp [admissions]
    · have still := serves.lined.idle other later
      rw [active] at still
      cases still
  busy := ⟨fun _ => ⟨_, mem_cons_self, rfl⟩, fun _ => rfl⟩

theorem finish (active : generation.active = true) :
    Serves nextRequest nextGeneration { account with busy := false } generations where
  lined := serves.lined.sublist (sublist_cons_self ..)
  numbered other member := serves.numbered other (mem_cons_of_mem _ member)
  issued := serves.issued
  line := by
    have line := serves.line
    rwa [waiting_active active] at line
  running other member := serves.running other (mem_cons_of_mem _ member)
  busy := by
    refine ⟨(nomatch ·), fun ⟨other, member, still⟩ => ?_⟩
    have idle := serves.lined.idle other member
    rw [still] at idle
    cases idle

end

section

variable (serves : Serves nextRequest nextGeneration account generations) (exact_ : account.Exact)

include serves exact_

/-- A ticket is dropped. -/
theorem cancel {generationId requestId : UInt64} (admitted : requestId ∈ account.joinedIds)
    (placed : ∀ generation ∈ generations, ∀ entry ∈ generation.requests,
      entry.id = requestId → generation.id = generationId) :
    Serves nextRequest nextGeneration (account.withdraw [requestId])
      (cancelIn generationId requestId generations) where
  lined := serves.lined.cancelIn
  numbered generation member := by
    obtain ⟨other, there, id, -⟩ := cancelIn_within _ _ _ generation member
    rw [← id]
    exact serves.numbered other there
  issued := serves.issued
  line := by
    have apart := exact_.line_nodup
    rw [serves.line] at apart
    have known : ∀ id ∈ [requestId], id ∈ account.joinedIds := fun id last => by
      rwa [mem_singleton.mp last]
    have withdrawn := exact_.withdraw known
    rw [withdrawn.2, serves.line, waiting_cancelIn serves.lined.nodup apart placed]
  running generation member active :=
    serves.running generation ((mem_cancelIn_active active).mp member) active
  busy := by
    refine serves.busy.trans ⟨?_, ?_⟩
    · rintro ⟨generation, member, active⟩
      exact ⟨generation, (mem_cancelIn_active active).mpr member, active⟩
    · rintro ⟨generation, member, active⟩
      exact ⟨generation, (mem_cancelIn_active active).mp member, active⟩

theorem close :
    Serves nextRequest nextGeneration (account.withdraw account.joinedIds)
      (generations.filter active) where
  lined := serves.lined.sublist filter_sublist
  numbered generation member := serves.numbered generation (mem_filter.mp member).1
  issued := serves.issued
  line := by
    rw [(exact_.withdraw fun _ joined => joined).2]
    trans []
    · refine filter_eq_nil_iff.mpr fun item member => ?_
      have joined : item.1 ∈ account.joinedIds :=
        mem_map_of_mem (Account.mem_line.mp member).1
      simp [joined]
    · simp [waiting, filter_filter]
  running generation member := serves.running generation (mem_filter.mp member).1
  busy := by
    refine serves.busy.trans ⟨?_, ?_⟩
    · rintro ⟨generation, member, active⟩
      exact ⟨generation, mem_filter.mpr ⟨member, active⟩, active⟩
    · rintro ⟨generation, member, active⟩
      exact ⟨generation, (mem_filter.mp member).1, active⟩

/-- A request is pushed into a generation at the end. -/
theorem join {laterGeneration : Nat} {last : MutationGeneration C R} {entry : MutationEntry R}
    (number : entry.id.toNat = nextRequest) (idle : last.active = false)
    (line : waiting generations = waiting (earlier ++ [last]))
    (old : ∀ generation, generation.active = true →
      (generation ∈ generations ↔ generation ∈ earlier))
    (numbered : ∀ generation ∈ earlier ++ [last], generation.id.toNat < laterGeneration)
    (lined : Lined (earlier ++ [last.push entry])) :
    Serves (nextRequest + 1) laterGeneration
      { account with
        joined := account.joined ++ [(entry.id, ⟨last.compatibility, entry.request⟩)] }
      (earlier ++ [last.push entry]) where
  lined := lined
  numbered := forall_mem_snoc (fun _ before => numbered _ (mem_append_left _ before))
    (numbered last (mem_append_right _ mem_cons_self))
  issued := by
    rw [Account.joinedIds, map_append, map_singleton]
    refine forall_mem_snoc (fun id before => Nat.lt_succ_of_lt (serves.issued id before)) ?_
    rw [number]
    exact Nat.lt_succ_self _
  line := by
    have fresh : entry.id ∉ account.joinedIds := fun member => by
      have := serves.issued _ member
      omega
    rw [(exact_.join fresh).2, serves.line, line, waiting_push idle]
  running generation member active := by
    rcases mem_append.mp member with before | new
    · exact serves.running generation ((old generation active).mpr before) active
    · rw [mem_singleton.mp new] at active
      exact absurd (idle.symm.trans active) Bool.false_ne_true
  busy := by
    refine serves.busy.trans ⟨?_, ?_⟩
    · rintro ⟨generation, member, active⟩
      exact ⟨generation, mem_append_left _ ((old generation active).mp member), active⟩
    · rintro ⟨generation, member, active⟩
      rcases mem_append.mp member with before | new
      · exact ⟨generation, (old generation active).mpr before, active⟩
      · rw [mem_singleton.mp new] at active
        exact absurd (idle.symm.trans active) Bool.false_ne_true

end

end Serves

end MutationSequencer
