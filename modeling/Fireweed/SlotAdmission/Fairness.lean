import Fireweed.SlotAdmission
import Fireweed.WaitingLines.Holders

/-!
# A bounded fair semaphore

The admission agrees with the permits and futures outside of it if they form a hall
whose ledger is the number of active slots, and its order is the line of the log.
While somebody waits all slots are active, so a newcomer that finds a free slot
overtakes nobody. Every operation keeps this agreement.
-/

namespace SlotAdmission

open BTree Checked List Runs Std WaitingLines
open ByteAdmission (Panic Waker expectSome)

/-- How the line reads futures and waiters. -/
def view : View Unit Unit SlotAcquire AdmissionWaiter where
  key _ := ()
  claim _ := ()
  ticket := SlotAcquire.waiterId
  active future := !future.completed
  spent := SlotAcquire.completed
  status := AdmissionWaiter.status

/-- The admission agrees with the permits and futures outside of it. -/
structure Sound (limits : Limits) (held : Nat) (slots : SlotAdmissionState)
    (futures : BTreeMap Nat SlotAcquire) (log : List Event) : Prop where
  hall : Hall view futures slots.waiters log (List.replicate held ()) (fun _ => slots.active)
    slots.queued
  next : slots.nextWaiterId = UInt64.ofNat (joins log)
  attached : ∀ (name : Nat) (future : SlotAcquire), futures[name]? = some future →
    future.inner = !future.completed
  order : slots.order = line () log
  bounded : slots.active ≤ limits.activeLimit
  within : slots.queued ≤ limits.queuedLimit
  full : slots.order ≠ [] → slots.active = limits.activeLimit
  fair : Fair log

theorem sound_initial (limits : Limits) : Sound limits 0 SlotAdmissionState.new ∅ [] where
  hall := .empty
  next := rfl
  attached name future found := by simp at found
  order := rfl
  bounded := Nat.zero_le _
  within := Nat.zero_le _
  full waits := absurd rfl waits
  fair := fair_nil

namespace Sound

variable {limits : Limits} {held held' : Nat} {slots : SlotAdmissionState}
  {futures futures' : BTreeMap Nat SlotAcquire} {log : List Event} {name : Nat}
  {future : SlotAcquire} {id : UInt64} {waiter : AdmissionWaiter}

section

variable (sound : Sound limits held slots futures log)

include sound

/-- Futures and waiters change; the counters and the line stay. -/
theorem settle {waiters : BTreeMap UInt64 AdmissionWaiter}
    (hall : Hall view futures' waiters log (replicate held' ()) (fun _ => slots.active)
      slots.queued)
    (attached : ∀ (name : Nat) (future : SlotAcquire), futures'[name]? = some future →
      future.inner = !future.completed) :
    Sound limits held' { slots with waiters := waiters } futures' log :=
  { sound with hall := hall, attached := attached }

/-- A future without a waiter comes or changes its flags. -/
theorem unregistered (before : ∀ f, futures[name]? = some f → view.slot slots.waiters f = none)
    (none_ : future.waiterId = none) (finished : future.inner = !future.completed) :
    Sound limits held slots (futures.insert name future) log :=
  sound.settle (sound.hall.unslotted name (get_insert_others _ _ _) before (of_get_insert none_))
    (forall_insert finished sound.attached)

/-- A future without a waiter goes. -/
theorem dropped_unregistered (found : futures[name]? = some future)
    (absent : view.slot slots.waiters future = none) :
    Sound limits held slots (futures.erase name) log :=
  sound.settle (sound.hall.unslotted name (get_erase_others _ _) (of_get found absent) of_get_erase)
    (forall_erase sound.attached)

section

variable (found : futures[name]? = some future) (has : future.waiterId = some id)
  (there : slots.waiters[id]? = some waiter)

include found has there

/-- A waiter stores another waker. -/
theorem touched (unfinished : future.completed = false) (waker : Option Waker) :
    Sound limits held { slots with
      waiters := slots.waiters.insert id { waiter with waker := waker } } futures log := by
  have touched := sound.hall.touch future { waiter with waker := waker } found has there rfl rfl has
    rfl unfinished
  rw [insert_same _ found] at touched
  exact sound.settle touched sound.attached

/-- A future that had its turn gives up its waiter; a granted slot is then held outside. -/
theorem taken (turn : waiter.status ≠ .waiting) (others : ∀ b ≠ name, futures'[b]? = futures[b]?)
    (after : ∀ g, futures'[name]? = some g → g.waiterId = some id ∧ g.completed = true)
    (attached : ∀ (name : Nat) (future : SlotAcquire), futures'[name]? = some future →
      future.inner = !future.completed) :
    Sound limits (if waiter.status = .granted then held + 1 else held)
      { slots with waiters := slots.waiters.erase id } futures' log := by
  have hall := sound.hall.vacate found has there turn others fun g atName => by
    obtain ⟨ticketed, finished⟩ := after g atName
    exact ⟨rfl, ticketed, by simp [view, finished]⟩
  refine sound.settle ?_ attached
  by_cases granted : waiter.status = .granted
  · rw [if_pos granted, replicate_succ]
    rwa [show view.status waiter = .granted from granted, if_pos rfl] at hall
  · rw [if_neg granted]
    rwa [if_neg (show ¬view.status waiter = .granted from granted)] at hall

end

/-- A newcomer takes a free slot. Nobody waits then. -/
theorem entered (free : slots.active < limits.activeLimit) :
    Sound limits (held + 1) { slots with active := slots.active + 1 } futures
      (log ++ [.entered ()]) := by
  have idle : line () log = [] := by
    rw [← sound.order]
    by_contra waits
    have := sound.full waits
    omega
  have lines : ∀ key, line key (log ++ [.entered ()]) = line key log := fun key => line_snoc ..
  have joined : joins (log ++ [.entered ()]) = joins log := joins_append ..
  refine ⟨sound.hall.rebook lines joined.ge fun claim => ?_, by rw [joined]; exact sound.next,
    sound.attached, by rw [lines]; exact sound.order, free, sound.within, fun waits => ?_,
    sound.fair.snoc idle⟩
  · rw [replicate_succ, count_cons_self]
    dsimp only
    omega
  · exact absurd (sound.order.trans idle) waits

/-- A future joins the line; all slots are active. -/
theorem registered (few : joins log < 2 ^ 64) (found : futures[name]? = some future)
    (unregistered : future.waiterId = none) (unfinished : future.completed = false)
    (busy : ¬slots.active < limits.activeLimit) (below : slots.queued < limits.queuedLimit)
    (waker : Option Waker) (now : Nat) :
    Sound limits held
      { slots with
        nextWaiterId := slots.nextWaiterId + 1
        order := slots.order ++ [slots.nextWaiterId]
        waiters := slots.waiters.insert slots.nextWaiterId ⟨.waiting, waker⟩
        queued := slots.queued + 1 }
      (futures.insert name
        { future with waiterId := some slots.nextWaiterId, registeredAt := some now })
      (log ++ [.joined () slots.nextWaiterId]) := by
  have number := toNat_next sound.next few
  have joined : joins (log ++ [.joined () slots.nextWaiterId]) = joins log + 1 :=
    joins_append ..
  let waiting : SlotAcquire :=
    { future with waiterId := some slots.nextWaiterId, registeredAt := some now }
  have hall := sound.hall.join waiting ⟨.waiting, waker⟩ found unregistered rfl number rfl
    unfinished
  refine ⟨hall, ?_, forall_insert (sound.attached name future found) sound.attached, ?_,
    sound.bounded, below, fun _ => ?_, sound.fair.snoc trivial⟩
  · rw [joined, sound.next]
    exact (UInt64.ofNat_add ..).symm
  · rw [line_snoc, Event.advance, if_pos rfl, ← sound.order]
  · exact Nat.le_antisymm sound.bounded (Nat.not_lt.mp busy)

end

section

variable (sound : Sound limits held slots futures log) (found : futures[name]? = some future)
  (has : future.waiterId = some id) (there : slots.waiters[id]? = some waiter)
  (waits : waiter.status = .waiting)

include sound found has there waits

/-- A waiting future leaves the line and is gone. -/
theorem cancelled :
    let left := unqueue { slots with waiters := slots.waiters.erase id } id
    Sound limits held left.2 (futures.erase name) (log ++ left.1) := by
  have listed : id ∈ slots.order := by
    rw [sound.order]
    exact (sound.hall.toRoom.mem_line_iff found has).mpr ⟨rfl, waiter, there, waits⟩
  have joined : joins (log ++ [.left () id]) = joins log := joins_append ..
  simp only [unqueue, if_pos listed]
  refine ⟨sound.hall.leave found has there waits, by rw [joined]; exact sound.next,
    forall_erase sound.attached, ?_, sound.bounded, Nat.le_trans (Nat.sub_le ..) sound.within,
    fun others => sound.full ?_, sound.fair.snoc trivial⟩
  · rw [line_snoc, Event.advance, if_pos rfl, ← sound.order]
  · exact ne_nil_of_mem listed

/-- A waiting future whose deadline is over leaves the line and is completed. -/
theorem expired :
    let left := unqueue { slots with waiters := slots.waiters.erase id } id
    Sound limits held left.2
      (futures.insert name { future.complete with waiterId := none }) (log ++ left.1) := by
  have gone := sound.cancelled found has there waits
  refine gone.settle (gone.hall.unslotted name (fun b different => ?_) of_get_erase
    (of_get_insert rfl)) (forall_insert rfl sound.attached)
  rw [get_insert_ne _ _ (Ne.symm different), get_erase_ne _ (Ne.symm different)]

end

/-- A released slot goes to the first waiter. -/
theorem passed_on (sound : Sound limits (held + 1) slots futures log) :
    ∃ released, releaseSlotLocked slots = .ok released ∧
      Sound limits held released.state futures (log ++ released.events) := by
  have counted : 1 ≤ slots.active := by
    have books := sound.hall.books ()
    rw [replicate_succ, count_cons_self] at books
    omega
  rw [releaseSlotLocked]
  cases queue : slots.order with
  | nil =>
    refine ⟨_, rfl, ?_⟩
    rw [append_nil]
    refine ⟨sound.hall.rebook (fun _ => rfl) (Nat.le_refl _) fun claim => ?_, sound.next,
      sound.attached, queue.symm.trans sound.order, Nat.le_trans (Nat.sub_le ..) sound.bounded,
      sound.within, fun waits => absurd rfl waits, sound.fair⟩
    rw [replicate_succ, count_cons_self]
    dsimp only
    omega
  | cons id rest =>
    have listed : id ∈ line () log := by
      rw [← sound.order, queue]
      exact mem_cons_self
    obtain ⟨name, future, waiter, found, -, has, there, waits⟩ := (sound.hall.lines () id).mp listed
    simp only [there, expectSome]
    refine ⟨_, rfl, ?_⟩
    have joined : joins (log ++ [.granted () id]) = joins log := joins_append ..
    have granted := sound.hall.grant ⟨.granted, none⟩ (fun _ => slots.active + 1) found has there
      waits rfl fun _ => by simp
    have same : slots.active - 1 + 1 = slots.active := by omega
    refine ⟨?_, by rw [joined]; exact sound.next, sound.attached, ?_, by simpa only [same] using
      sound.bounded, Nat.le_trans (Nat.sub_le ..) sound.within, fun _ => ?_, sound.fair.snoc ?_⟩
    · refine granted.rebook (fun _ => rfl) (Nat.le_refl _) fun claim => ?_
      rw [replicate_succ, count_cons_self]
      dsimp only
      omega
    · rw [line_snoc, Event.advance, if_pos rfl, ← sound.order, queue]
      simp
    · dsimp only
      rw [same]
      exact sound.full (by simp [queue])
    · change (line _ _).head? = _
      rw [← sound.order, queue]
      rfl

section

variable (sound : Sound limits held slots futures log)

include sound

/-- `close` turns the waiters of the line, and no others. -/
theorem get_close (id : UInt64) :
    (close slots).waiters[id]? =
      if id ∈ slots.order then slots.waiters[id]?.map fun _ => ⟨.closed, none⟩
      else slots.waiters[id]? := by
  have mapped : (close slots).waiters[id]? = slots.waiters[id]?.map closeWaiter :=
    ExtTreeMap.getElem?_map
  rw [mapped, sound.order]
  cases there : slots.waiters[id]? with
  | none => simp
  | some waiter =>
    -- a waiter belongs to a future, so it waits exactly if it is in the line
    obtain ⟨name, future, found, has⟩ := sound.hall.owned there
    have listed : id ∈ line () log ↔ _ := sound.hall.toRoom.mem_line_iff found has
    rw [there] at listed
    by_cases waits : waiter.status = .waiting
    · rw [if_pos (listed.mpr ⟨rfl, waiter, rfl, waits⟩)]
      simp [closeWaiter, waits]
    · rw [if_neg fun here => ?_]
      · simp [closeWaiter, waits]
      · obtain ⟨-, other, same, here⟩ := listed.mp here
        cases same
        exact waits here

/-- The line is dispersed, and the holders stay. -/
theorem closed : Sound limits held (close slots) futures (log ++ [.dispersed]) := by
  have joined : joins (log ++ [.dispersed]) = joins log := joins_append ..
  refine ⟨sound.hall.disperse (fun id => ?_) (fun _ => rfl)
    sound.get_close, by rw [joined]; exact sound.next, sound.attached, ?_, sound.bounded,
    Nat.zero_le _, fun waits => absurd rfl waits, sound.fair.snoc trivial⟩
  · rw [sound.order]
    exact ⟨fun here => ⟨(), here⟩, fun ⟨_, here⟩ => here⟩
  · rw [line_snoc]
    rfl

/-! ## Polls and drops -/

theorem polled_registered (found : futures[name]? = some future) (has : future.waiterId = some id)
    (unfinished : future.completed = false) (waker : Waker) (now : Nat) :
    ∃ polled, pollRegistered limits slots future id waker now = .ok polled ∧
      Sound limits (held + polled.result.permits) polled.state (futures.insert name polled.future)
        (log ++ polled.events) := by
  obtain ⟨waiter, there⟩ := sound.hall.live found has (by simp [view, unfinished])
  simp only [pollRegistered, there, expectSome, ok_bind]
  split
  · next late => exact ⟨_, rfl, sound.expired found has there late.1⟩
  · have taken := fun turn => sound.taken found has there turn
      (get_insert_others _ _ future.complete) (of_get_insert ⟨has, rfl⟩)
      (forall_insert rfl sound.attached)
    cases status : waiter.status with
    | waiting =>
      refine ⟨_, rfl, ?_⟩
      have touched := sound.touched found has there unfinished (some waker)
      rw [status] at touched
      simpa [Poll.permits, insert_same _ found] using touched
    | granted =>
      refine ⟨_, rfl, ?_⟩
      rw [append_nil]
      simpa [status, Poll.permits] using taken (by simp [status])
    | closed =>
      refine ⟨_, rfl, ?_⟩
      rw [append_nil]
      simpa [status, Poll.permits] using taken (by simp [status])

theorem polled_first (few : joins log < 2 ^ 64) (found : futures[name]? = some future)
    (unregistered : future.waiterId = none) (unfinished : future.completed = false) (waker : Waker)
    (now : Nat) :
    let polled := pollFirst limits slots future waker now
    Sound limits (held + polled.result.permits) polled.state (futures.insert name polled.future)
      (log ++ polled.events) := by
  have finished : Sound limits held slots (futures.insert name future.complete) log :=
    sound.unregistered (of_get found (View.slot_of_none unregistered)) unregistered rfl
  rw [pollFirst]
  split
  · simpa [Poll.permits] using finished
  split
  · next free => exact finished.entered free
  · next busy =>
    split
    · simpa [Poll.permits] using finished
    · next room => exact sound.registered few found unregistered unfinished busy (by omega) _ now

theorem polled (few : joins log < 2 ^ 64) (found : futures[name]? = some future)
    (unfinished : future.completed = false) (waker : Waker) (now : Nat) :
    ∃ polled, poll limits slots future waker now = .ok polled ∧
      Sound limits (held + polled.result.permits) polled.state (futures.insert name polled.future)
        (log ++ polled.events) := by
  have attached := sound.attached name future found
  rw [unfinished] at attached
  rw [poll, attached]
  cases has : future.waiterId with
  | none => exact ⟨_, rfl, sound.polled_first few found has unfinished waker now⟩
  | some id => exact sound.polled_registered found has unfinished waker now

theorem dropped (found : futures[name]? = some future) :
    ∃ released, dropAcquire slots future = .ok released ∧
      Sound limits held released.state (futures.erase name) (log ++ released.events) := by
  have unslotted : view.slot slots.waiters future = none →
      Sound limits held slots (futures.erase name) (log ++ []) := by
    intro absent
    rw [append_nil]
    exact sound.dropped_unregistered found absent
  rw [dropAcquire]
  split
  · next detached =>
    refine ⟨_, rfl, unslotted (sound.hall.spent found ?_)⟩
    have attached := sound.attached name future found
    rw [Bool.not_eq_true'] at detached
    rw [detached] at attached
    simpa [view] using attached.symm
  split
  · next none_ => exact ⟨_, rfl, unslotted (View.slot_of_none none_)⟩
  · next id has =>
    split
    · next absent => exact ⟨_, rfl, unslotted (by rw [View.slot_of_ticket has, absent])⟩
    · next waiter there =>
      have taken := fun turn => sound.taken found has there turn
        (get_erase_others _ _) of_get_erase (forall_erase sound.attached)
      dsimp only
      cases status : waiter.status with
      | waiting => exact ⟨_, rfl, sound.cancelled found has there status⟩
      | granted =>
        have holds := taken (by simp [status])
        rw [if_pos status] at holds
        exact holds.passed_on
      | closed =>
        refine ⟨_, rfl, ?_⟩
        have holds := taken (by simp [status])
        rw [if_neg (by simp [status])] at holds
        rw [append_nil]
        exact holds

end

end Sound

namespace System

def waiting (sys : System) : Nat := view.count sys.futures sys.slots.waiters view.waiting

/-- The futures that were granted a slot and have not taken it yet. -/
def granted (sys : System) : Nat := view.count sys.futures sys.slots.waiters (view.granted ())

def Agrees (limits : Limits) (sys : System) : Prop :=
  Sound limits sys.permits sys.slots sys.futures sys.log

/-- No locked section panics, and every action keeps the admission and its users in agreement. -/
theorem Agrees.performs {limits : Limits} {sys : System} (agrees : sys.Agrees limits)
    (few : joins sys.log < 2 ^ 64) (action : Action) :
    ∃ reply after, perform limits sys action = .ok (reply, after) ∧ after.Agrees limits := by
  cases action with
  | acquire name =>
    simp only [perform]
    split
    · exact ⟨_, _, rfl, agrees⟩
    · next free =>
      refine ⟨_, _, rfl, agrees.unregistered (fun f found => ?_) rfl rfl⟩
      rw [free] at found
      cases found
  | poll name waker now =>
    simp only [perform]
    split
    · exact ⟨_, _, rfl, agrees⟩
    · next future found =>
      split
      · exact ⟨_, _, rfl, agrees⟩
      · next unfinished =>
        rw [Bool.not_eq_true] at unfinished
        obtain ⟨polled, ran, kept⟩ := agrees.polled few found unfinished waker now
        refine ⟨_, _, by rw [ran]; rfl, ?_⟩
        exact kept
  | dropAcquire name =>
    simp only [perform]
    split
    · exact ⟨_, _, rfl, agrees⟩
    · next future found =>
      obtain ⟨released, ran, kept⟩ := agrees.dropped found
      refine ⟨_, _, by rw [ran]; rfl, ?_⟩
      exact kept
  | dropPermit =>
    obtain ⟨slots, permits, futures, log⟩ := sys
    cases permits with
    | zero => exact ⟨_, _, rfl, agrees⟩
    | succ permits =>
      obtain ⟨released, ran, kept⟩ := Sound.passed_on agrees
      refine ⟨_, _, by simp only [perform]; rw [ran]; rfl, ?_⟩
      exact kept
  | close => exact ⟨_, _, rfl, agrees.closed⟩

end System

/-! ## Whole runs -/

/-- What the admission promises in every state. -/
structure Admits (limits : Limits) (sys : System) : Prop where
  active : sys.slots.active = sys.permits + sys.granted
  active_le : sys.slots.active ≤ limits.activeLimit
  queued : sys.slots.queued = sys.waiting
  queued_le : sys.slots.queued ≤ limits.queuedLimit
  /-- While a future waits no slot is free, so no newcomer is admitted. -/
  full : 0 < sys.waiting → sys.slots.active = limits.activeLimit
  /-- Waiters get their turn in the order of registration, and a newcomer passes nobody. -/
  in_turn : Fair sys.log
  /-- The line of the log are the waiting futures. -/
  line : ∀ id, id ∈ line () sys.log ↔ ∃ name, view.Waits sys.futures sys.slots.waiters () id name
  no_panic : ∀ action, ∃ reply after, perform limits sys action = .ok (reply, after)
  drained : sys.futures = ∅ → sys.permits = 0 → sys.slots.active = 0 ∧ sys.slots.queued = 0

open SlotAdmission.System

theorem System.Agrees.admits {limits : Limits} {sys : System} (agrees : sys.Agrees limits)
    (few : joins sys.log < 2 ^ 64) : Admits limits sys where
  active := by
    have books := agrees.hall.books ()
    rw [count_replicate_self] at books
    exact books.symm
  active_le := agrees.bounded
  queued := agrees.hall.waits.symm
  queued_le := agrees.within
  full waits := by
    refine agrees.full fun none => ?_
    have empty := agrees.hall.toRoom.length_line ()
    rw [← agrees.order, none] at empty
    have same : (view.waiting : SlotAcquire → AdmissionWaiter → Bool) = fun future waiter =>
        decide (view.key future = () ∧ view.status waiter = .waiting) := by
      funext future waiter
      simp [View.waiting]
    rw [waiting, same, ← empty] at waits
    exact absurd waits (by simp)
  in_turn := agrees.fair
  line := agrees.hall.lines ()
  no_panic action := by
    obtain ⟨reply, after, performed, -⟩ := agrees.performs few action
    exact ⟨reply, after, performed⟩
  drained noFutures noPermits := by
    have hall := agrees.hall
    rw [noPermits, noFutures] at hall
    obtain ⟨-, ledger, queued⟩ := hall.drained
    exact ⟨ledger (), queued⟩

theorem perform_appends (limits : Limits) (sys : System) (action : Action) :
    Appends System.log sys (perform limits sys action) := by
  cases action with
  | acquire name =>
    rw [perform]
    split
    · exact .same
    · exact .more [] (append_nil _).symm
  | poll name waker now =>
    rw [perform]
    split
    · exact .same
    · split
      · exact .same
      · exact .bind fun polled => .more polled.events rfl
  | dropAcquire name | dropPermit =>
    rw [perform]
    split
    · exact .same
    · exact .bind fun released => .more released.events rfl
  | close => exact .more _ rfl

/-- Along every run with fewer registrations than the waiter ids can number, the admission is a
bounded fair semaphore. -/
theorem reaches_admits {limits : Limits} {actions : List Action} {sys : System}
    (run : Run (Step limits) .initial actions sys) (few : joins sys.log < 2 ^ 64) :
    Admits limits sys := by
  have start : System.initial.Agrees limits := sound_initial limits
  exact (keeps_of_few start (perform_appends limits)
    (fun _ action agrees few => agrees.performs few action) run few).admits few

/-- One slot, and a line of two with a deadline of 10. -/
def oneSlot : Limits := ⟨"claim", 1, 2, 10, by decide⟩

/-- The first request is served at once; of two that wait one misses its deadline, the other gets
the slot and drops it unpolled. -/
def handOver : List Action :=
  [.acquire 0, .poll 0 7 0, .acquire 1, .poll 1 8 0, .acquire 2, .poll 2 9 5, .poll 1 8 10,
    .dropPermit, .dropAcquire 2]

theorem reaches_admits_handOver : ∃ sys, Run (Step oneSlot) System.initial handOver sys ∧
    joins sys.log < 2 ^ 64 ∧
    sys.log = [.entered (), .joined () 0, .joined () 1, .left () 0, .granted () 1] ∧
    Admits oneSlot sys := by
  have computed : (runAll (attempt (perform oneSlot)) System.initial handOver).map System.log =
      some [.entered (), .joined () 0, .joined () 1, .left () 0, .granted () 1] := by
    decide +kernel
  obtain ⟨sys, reached, log⟩ := Option.map_eq_some_iff.mp computed
  have run := runAll_run (attempt_performs _) reached
  have few : joins sys.log < 2 ^ 64 := by
    rw [log]
    decide
  exact ⟨sys, run, few, log, reaches_admits run few⟩

/-! ## A counter that wraps -/

/-- The slot is taken and future 1 waits with id 0. The next id is `id`. -/
structure Crowded (id : UInt64) (sys : System) : Prop where
  isOpen : sys.slots.closed = false
  active : sys.slots.active = 1
  queued : sys.slots.queued = 1
  nextWaiterId : sys.slots.nextWaiterId = id
  order : sys.slots.order = [0]
  waiter : sys.slots.waiters[(0 : UInt64)]? = some ⟨.waiting, some 7⟩
  waiting : sys.futures[1]? = some ⟨true, some 0, some 0, false⟩
  absent : sys.futures[3]? = none

def firstRequests : List Action := [.acquire 0, .poll 0 7 0, .acquire 1, .poll 1 7 0]

theorem crowded_firstRequests :
    ∃ sys, Run (Step oneSlot) initial firstRequests sys ∧ Crowded 1 sys := by
  have computed : (runAll (attempt (perform oneSlot)) initial firstRequests).map (fun sys =>
      decide ((sys.slots.closed = false ∧ sys.slots.active = 1 ∧ sys.slots.queued = 1 ∧
        sys.slots.nextWaiterId = 1 ∧ sys.slots.order = [0]) ∧
        sys.slots.waiters[(0 : UInt64)]? = some ⟨.waiting, some 7⟩ ∧
        sys.futures[1]? = some ⟨true, some 0, some 0, false⟩ ∧ sys.futures[3]? = none)) =
      some true := by decide +kernel
  obtain ⟨sys, reached, seen⟩ := Option.map_eq_some_iff.mp computed
  obtain ⟨⟨isOpen, active, queued, next, order⟩, waiter, waiting, absent⟩ := of_decide_eq_true seen
  exact ⟨sys, runAll_run (attempt_performs _) reached, isOpen, active, queued, next, order, waiter,
    waiting, absent⟩

/-- The state in which future 3 has registered. -/
def System.joined (sys : System) : System where
  slots := { sys.slots with
    nextWaiterId := sys.slots.nextWaiterId + 1
    waiters := sys.slots.waiters.insert sys.slots.nextWaiterId ⟨.waiting, some 7⟩
    order := [0, sys.slots.nextWaiterId]
    queued := 2 }
  permits := sys.permits
  futures := (sys.futures.insert 3 acquire).insert 3
    ⟨true, some sys.slots.nextWaiterId, some 0, false⟩
  log := sys.log ++ [.joined () sys.slots.nextWaiterId]

/-- The state in which a registered future is gone with the waiter of an id. -/
def System.unjoined (sys : System) (id : UInt64) (name : Nat) : System where
  slots := { sys.slots with
    waiters := sys.slots.waiters.erase id
    order := [0]
    queued := 1 }
  permits := sys.permits
  futures := sys.futures.erase name
  log := sys.log ++ [.left () id]

namespace Crowded

variable {id : UInt64} {sys : System}

theorem registers (crowded : Crowded id sys) :
    Run (Step oneSlot) sys [.acquire 3, .poll 3 7 0] sys.joined := by
  refine runAll_run (attempt_performs _) ?_
  simp [runAll, attempt, perform, crowded.absent, acquire, poll, pollFirst, crowded.isOpen,
    crowded.active, crowded.queued, crowded.order, expectSome, Except.toOption, joined,
    Poll.permits, oneSlot, bind, Except.bind]

/-- A future that registers and is dropped uses up an id. -/
theorem visited (crowded : Crowded id sys) (nonzero : id ≠ 0) :
    ∃ actions after, Run (Step oneSlot) sys actions after ∧ Crowded (id + 1) after := by
  have dropped : attempt (perform oneSlot) sys.joined (.dropAcquire 3) =
      some (sys.joined.unjoined id 3) := by
    simp [attempt, perform, joined, unjoined, dropAcquire, crowded.nextWaiterId,
      unqueue, Except.toOption, bind, Except.bind, nonzero.symm]
  refine ⟨_, _, crowded.registers.append (.single (attempt_performs _ _ _ _ dropped)),
    crowded.isOpen, crowded.active, rfl, by rw [← crowded.nextWaiterId]; rfl, rfl, ?_, ?_,
    by simp [unjoined]⟩
  · simp [unjoined, joined, crowded.nextWaiterId, ExtTreeMap.getElem?_erase,
      ExtTreeMap.getElem?_insert, nonzero, crowded.waiter]
  · simp [unjoined, joined, ExtTreeMap.getElem?_erase, ExtTreeMap.getElem?_insert, crowded.waiting]

/-- When id 0 is handed out again, the drop of its first owner takes it from the second. -/
theorem loses (crowded : Crowded 0 sys) :
    ∃ actions after, Run (Step oneSlot) sys actions after ∧
      perform oneSlot after (.poll 3 7 1) = .error "registered slot waiter missing" := by
  have dropped : attempt (perform oneSlot) sys.joined (.dropAcquire 1) =
      some (sys.joined.unjoined 0 1) := by
    simp [attempt, perform, joined, unjoined, dropAcquire, crowded.nextWaiterId,
      crowded.waiting, ExtTreeMap.getElem?_insert, unqueue, Except.toOption, bind, Except.bind]
  refine ⟨_, _, crowded.registers.append (.single (attempt_performs _ _ _ _ dropped)), ?_⟩
  simp [perform, joined, unjoined, poll, pollRegistered, expectSome,
    crowded.nextWaiterId, bind, Except.bind]

end Crowded

/-- After 2 ^ 64 registrations a poll fails inside its locked section. -/
theorem reissued_id_loses_waiter : ∃ (actions : List Action) (sys : System),
    Run (Step oneSlot) .initial actions sys ∧
      perform oneSlot sys (.poll 3 7 1) = .error "registered slot waiter missing" := by
  obtain ⟨start, first, crowded⟩ := crowded_firstRequests
  obtain ⟨visits, middle, between, crowded⟩ := Run.wraps (fun _ _ => Crowded.visited) crowded
  obtain ⟨actions, sys, last, lost⟩ := Crowded.loses crowded
  exact ⟨_, sys, (first.append between).append last, lost⟩

end SlotAdmission
