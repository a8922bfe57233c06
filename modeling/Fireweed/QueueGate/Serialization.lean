import Fireweed.QueueGate.Ownership

/-!
# Serialization along whole runs

Polls, drops and `close` never fail inside their locked sections and keep the gate
in agreement with its users. In every state of every run a key has at most one
holder, and its waiters get it in the order of their registration.
-/

namespace QueueGate

open BTree Checked Runs Std WaitingLines QueueGatePermit
open ByteAdmission (Panic Waker expectSome)

variable {K : Type} [Ord K] [TransOrd K] [DecidableEq K]

namespace System

/-- The keys of the live permits. -/
def held (sys : System K) : List K := sys.permits.map QueueGatePermit.key

def waiting (sys : System K) : Nat := view.count sys.futures sys.gate.waiters view.waiting

def waitingOn (sys : System K) (key : K) : Nat :=
  view.count sys.futures sys.gate.waiters fun future waiter =>
    future.key = key ∧ waiter.status = .waiting

/-- The live permits and the granted futures of a key. -/
def holders (sys : System K) (key : K) : Nat :=
  sys.held.count key + view.count sys.futures sys.gate.waiters (view.granted key)

def Agrees (limits : Limits) (sys : System K) : Prop :=
  Sound limits sys.held sys.gate sys.futures sys.log

end System

section Steps

variable {limits : Limits} {held : List K} {gate : GateState K}
  {futures : BTreeMap Nat (QueueGateAcquire K)} {log : List (Event K)} {name : Nat}
  {future : QueueGateAcquire K} {id : UInt64}

theorem Sound.polled_registered (sound : Sound limits held gate futures log)
    (found : futures[name]? = some future) (has : future.waiterId = some id)
    (unfinished : future.completed = false) (waker : Waker) :
    ∃ polled, pollRegistered gate future id waker = .ok polled ∧
      Sound limits (polled.result.permit.map key ++ held) polled.state
        (futures.insert name polled.future) (log ++ polled.events) := by
  obtain ⟨waiter, there⟩ := sound.hall.live found has (by simp [view, unfinished])
  simp only [pollRegistered, there, expectSome, ok_bind]
  have taken := fun turn (after : QueueGateAcquire K) keyed ticketed (finished : after.completed) =>
    sound.taken found has there turn (get_insert_others _ name after)
      (of_get_insert ⟨keyed, ticketed, finished⟩)
      (forall_insert (fun _ => finished) sound.admitted)
  cases status : waiter.status with
  | waiting =>
    refine ⟨_, rfl, ?_⟩
    have touched := sound.touched found has there unfinished (some waker)
    rw [status] at touched
    simpa [Poll.permit, insert_same _ found] using touched
  | granted =>
    refine ⟨_, rfl, ?_⟩
    rw [List.append_nil]
    have holds := taken (by simp [status]) future.admitted rfl has rfl
    rwa [if_pos status] at holds
  | closed =>
    refine ⟨_, rfl, ?_⟩
    rw [List.append_nil]
    have gone := taken (by simp [status]) future.complete rfl has rfl
    rwa [if_neg (by simp [status])] at gone

variable [LawfulEqOrd K]

theorem Sound.polled_first (sound : Sound limits held gate futures log) (few : joins log < 2 ^ 64)
    (found : futures[name]? = some future) (unregistered : future.waiterId = none)
    (unfinished : future.completed = false) (waker : Waker) :
    ∃ polled, pollFirst limits gate future waker = .ok polled ∧
      Sound limits (polled.result.permit.map key ++ held) polled.state
        (futures.insert name polled.future) (log ++ polled.events) := by
  have finished : ∀ after : QueueGateAcquire K, after.waiterId = none → after.completed = true →
      Sound limits held gate (futures.insert name after) log := by
    intro after none_ complete
    exact sound.unregistered (of_get found (View.slot_of_none unregistered)) none_ fun _ => complete
  rw [pollFirst]
  split
  · refine ⟨_, rfl, ?_⟩
    simpa [Poll.permit] using finished future.complete unregistered rfl
  split
  · next free =>
    have absent : gate.entries[future.key]? = none := by
      rw [Bool.not_eq_true'] at free
      rw [← not_mem_iff_get, ExtTreeMap.mem_iff_contains, Bool.not_eq_true, free]
    exact ⟨_, rfl, (finished future.admitted unregistered rfl).entered absent⟩
  · next taken =>
    obtain ⟨entry, there⟩ : ∃ entry, gate.entries[future.key]? = some entry := by
      rw [← mem_iff_get, ExtTreeMap.mem_iff_contains]
      simpa using taken
    have retained : retainedForKey gate future.key = 1 + entry.waiters.length := by
      rw [retainedForKey, there]
      rfl
    split
    · refine ⟨_, rfl, ?_⟩
      simpa [Poll.permit] using finished future.complete unregistered rfl
    split
    · refine ⟨_, rfl, ?_⟩
      simpa [Poll.permit] using finished future.complete unregistered rfl
    · simp only [there, expectSome]
      refine ⟨_, rfl, ?_⟩
      exact sound.registered few found unregistered unfinished there (by omega) (by omega)
        (some waker)

theorem Sound.dropped (sound : Sound limits held gate futures log)
    (found : futures[name]? = some future) :
    ∃ released, dropAcquire gate future = .ok released ∧
      Sound limits held released.state (futures.erase name) (log ++ released.events) := by
  have erased : ∀ b ≠ name, (futures.erase name)[b]? = futures[b]? := get_erase_others _ _
  have unslotted : view.slot gate.waiters future = none →
      Sound limits held gate (futures.erase name) (log ++ []) := by
    intro absent
    rw [List.append_nil]
    exact sound.dropped_unregistered found absent
  rw [dropAcquire]
  split
  · next done =>
    refine ⟨_, rfl, unslotted ?_⟩
    rw [Bool.or_eq_true, Bool.and_eq_true] at done
    rcases done with acquired | ⟨-, none_⟩
    · exact sound.hall.spent found (sound.admitted name future found acquired)
    · exact View.slot_of_none (Option.isNone_iff_eq_none.mp none_)
  split
  · next none_ => exact ⟨_, rfl, unslotted (View.slot_of_none none_)⟩
  · next id has =>
    split
    · next absent => exact ⟨_, rfl, unslotted (by rw [View.slot_of_ticket has, absent])⟩
    · next waiter there =>
      have taken := fun turn => sound.taken found has there turn erased of_get_erase
        (forall_erase sound.admitted)
      dsimp only
      cases status : waiter.status with
      | waiting => exact ⟨_, rfl, sound.cancelled found has there status⟩
      | granted =>
        have holds := taken (by simp [status])
        rw [if_pos status] at holds
        exact holds.passed_on
      | closed =>
        refine ⟨_, rfl, ?_⟩
        rw [List.append_nil]
        have gone := taken (by simp [status])
        rwa [if_neg (by simp [status])] at gone

/-- No locked section panics, and every action keeps the gate and its users in agreement. -/
theorem System.Agrees.performs {sys : System K} (agrees : sys.Agrees limits)
    (few : joins sys.log < 2 ^ 64) (action : Action K) :
    ∃ reply after, perform limits sys action = .ok (reply, after) ∧ after.Agrees limits := by
  cases action with
  | acquire name key =>
    simp only [perform]
    split
    · exact ⟨_, _, rfl, agrees⟩
    · next free =>
      refine ⟨_, _, rfl, agrees.unregistered (fun f found => ?_) rfl fun acquired => ?_⟩
      · rw [free] at found
        cases found
      · cases acquired
  | poll name waker =>
    simp only [perform]
    split
    · exact ⟨_, _, rfl, agrees⟩
    · next future found =>
      split
      · exact ⟨_, _, rfl, agrees⟩
      · next unfinished =>
        rw [Bool.not_eq_true] at unfinished
        obtain ⟨polled, ran, kept⟩ : ∃ polled, poll limits sys.gate future waker = .ok polled ∧
            Sound limits (polled.result.permit.map key ++ sys.held) polled.state
              (sys.futures.insert name polled.future) (sys.log ++ polled.events) := by
          rw [poll]
          cases has : future.waiterId with
          | none => exact agrees.polled_first few found has unfinished waker
          | some id => exact agrees.polled_registered found has unfinished waker
        refine ⟨_, _, by rw [ran]; rfl, ?_⟩
        have held : System.held { gate := polled.state
                                  permits := sys.permits ++ polled.result.permit
                                  futures := sys.futures.insert name polled.future
                                  log := sys.log ++ polled.events } =
            sys.held ++ polled.result.permit.map key := List.map_append
        rw [System.Agrees, held]
        exact kept.perm List.perm_append_comm
  | dropAcquire name =>
    simp only [perform]
    split
    · exact ⟨_, _, rfl, agrees⟩
    · next future found =>
      obtain ⟨released, ran, kept⟩ := agrees.dropped found
      refine ⟨_, _, by rw [ran]; rfl, ?_⟩
      exact kept
  | dropPermit index =>
    simp only [perform]
    split
    · exact ⟨_, _, rfl, agrees⟩
    · next permit here =>
      obtain ⟨inside, rfl⟩ := List.getElem?_eq_some_iff.mp here
      have taken := (List.getElem_cons_eraseIdx_perm inside).map key
      obtain ⟨released, ran, kept⟩ := (agrees.perm taken.symm).passed_on
      refine ⟨_, _, by rw [ran]; rfl, ?_⟩
      exact kept
  | close => exact ⟨_, _, rfl, agrees.closed⟩

end Steps

/-! ## Whole runs -/

/-- What the gate promises in every state. -/
structure Serialized (limits : Limits) (sys : System K) : Prop where
  exclusive : ∀ key, sys.holders key ≤ 1
  entry_iff_held : ∀ key, key ∈ sys.gate.entries ↔ sys.holders key = 1
  not_stranded : ∀ key, 0 < sys.waitingOn key → sys.holders key = 1
  in_turn : Fair sys.log
  /-- The lines of the log are the waiting futures. -/
  lines : ∀ key id, id ∈ line key sys.log ↔
    ∃ name, view.Waits sys.futures sys.gate.waiters key id name
  queued : sys.gate.queued = sys.waiting ∧ sys.waiting ≤ limits.maxQueued
  per_key : ∀ key, sys.holders key + sys.waitingOn key ≤ limits.maxPerKey
  no_panic : ∀ action, ∃ reply after, perform limits sys action = .ok (reply, after)
  drained : sys.futures = ∅ → sys.permits = [] →
    sys.gate.entries = ∅ ∧ sys.gate.waiters = ∅ ∧ sys.gate.queued = 0

namespace System.Agrees

variable {limits : Limits} {sys : System K}

theorem holders_eq (agrees : sys.Agrees limits) (key : K) :
    sys.holders key = if key ∈ sys.gate.entries then 1 else 0 := by
  refine (agrees.hall.books key).trans (if_congr ?_ rfl rfl)
  rw [mem_iff_get, Option.isSome_iff_exists]

theorem waitingOn_eq (agrees : sys.Agrees limits) (key : K) :
    sys.waitingOn key = (sys.gate.queueOf key).length := by
  rw [agrees.queues, agrees.hall.toRoom.length_line]
  rfl

theorem serialized [LawfulEqOrd K] (agrees : sys.Agrees limits) (few : joins sys.log < 2 ^ 64) :
    Serialized limits sys where
  exclusive key := by
    rw [agrees.holders_eq]
    split <;> omega
  entry_iff_held key := by
    rw [agrees.holders_eq]
    split <;> simp_all
  not_stranded key waits := by
    rw [agrees.waitingOn_eq, GateState.queueOf] at waits
    rw [agrees.holders_eq, if_pos]
    rw [mem_iff_get, ← Option.isSome_iff_exists]
    by_contra absent
    rw [Option.not_isSome_iff_eq_none] at absent
    rw [absent] at waits
    simp at waits
  in_turn := agrees.fair
  lines := agrees.hall.lines
  queued := ⟨agrees.hall.waits.symm, Nat.le_trans agrees.hall.waits.le agrees.within⟩
  per_key key := by
    rw [agrees.holders_eq, agrees.waitingOn_eq, GateState.queueOf]
    split
    · next here =>
      obtain ⟨entry, found⟩ := (mem_iff_get ..).mp here
      rw [found]
      exact agrees.perKey key entry found
    · next absent =>
      rw [(not_mem_iff_get ..).mp absent]
      exact Nat.zero_le _
  no_panic action := by
    obtain ⟨reply, after, performed, -⟩ := agrees.performs few action
    exact ⟨reply, after, performed⟩
  drained noFutures noPermits := by
    have hall := agrees.hall
    rw [System.held, noPermits, noFutures] at hall
    obtain ⟨waiters, ledger, queued⟩ := hall.drained
    refine ⟨ExtTreeMap.ext_getElem? fun key => ?_, waiters, queued⟩
    have free := ledger key
    rw [ExtTreeMap.getElem?_empty]
    rw [GateState.ledger] at free
    simpa using free

end System.Agrees

omit [DecidableEq K] in
theorem perform_appends (limits : Limits) (sys : System K) (action : Action K) :
    Appends System.log sys (perform limits sys action) := by
  cases action with
  | acquire name key =>
    rw [perform]
    split
    · exact .same
    · exact .more [] (List.append_nil _).symm
  | poll name waker =>
    rw [perform]
    split
    · exact .same
    · split
      · exact .same
      · exact .bind fun polled => .more polled.events rfl
  | dropAcquire name | dropPermit index =>
    rw [perform]
    split
    · exact .same
    · exact .bind fun released => .more released.events rfl
  | close => exact .more _ rfl

/-- Along every run with fewer tickets than the waiter ids can number, every key has at most one
holder, its waiters get it in the order of their registration, and nothing is left behind. -/
theorem reaches_serialized [LawfulEqOrd K] {limits : Limits} {actions : List (Action K)}
    {sys : System K} (run : Run (Step limits) .initial actions sys)
    (few : joins sys.log < 2 ^ 64) : Serialized limits sys := by
  have start : (System.initial : System K).Agrees limits := sound_initial limits
  exact (keeps_of_few start (perform_appends limits)
    (fun _ action agrees few => agrees.performs few action) run few).serialized few

/-- Three requests on a key: the first is served at once, the second gets the key when the first
permit is dropped and drops it unpolled, the third gets it then and the gate is closed. -/
def handOver : List (Action String) :=
  [.acquire 0 "q", .poll 0 7, .acquire 1 "q", .poll 1 8, .acquire 2 "q", .poll 2 9,
    .dropPermit 0, .dropAcquire 1, .close, .poll 2 9]

theorem reaches_serialized_handOver : ∃ sys,
    Run (Step ⟨4, 3, by decide⟩) System.initial handOver sys ∧ joins sys.log < 2 ^ 64 ∧
      sys.log = [.entered "q", .joined "q" 0, .joined "q" 1, .granted "q" 0, .granted "q" 1,
        .dispersed] ∧
      sys.holders "q" = 1 ∧ Serialized ⟨4, 3, by decide⟩ sys := by
  have computed : (runAll (attempt (perform ⟨4, 3, by decide⟩)) System.initial handOver).map
      (fun sys => (sys.log, sys.holders "q")) =
      some ([.entered "q", .joined "q" 0, .joined "q" 1, .granted "q" 0, .granted "q" 1,
        .dispersed], 1) := by decide +kernel
  obtain ⟨sys, reached, seen⟩ := Option.map_eq_some_iff.mp computed
  have run := runAll_run (attempt_performs _) reached
  obtain ⟨log, held⟩ := Prod.mk.inj seen
  have few : joins sys.log < 2 ^ 64 := by
    rw [log]
    decide
  exact ⟨sys, run, few, log, held, reaches_serialized run few⟩

end QueueGate
