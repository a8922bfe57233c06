import Fireweed.Coordination.FenceHolders

/-!
# Exclusion and fairness of the selection fence

Polls, drops and `close` never fail inside their locked sections and keep the fence
in agreement with its users, as long as no waiter id is handed out twice. In every
state a key held exclusively has no other holder, and its waiters get it in the order
of their registration. The ids are numbered by a counter of 64 bits that wraps; once
it does, a future can lose its waiter to another one.
-/

namespace SelectionFence

open BTree Checked Runs Std WaitingLines FenceEntry
open ByteAdmission (Panic Waker expectSome)

variable {K : Type} [Ord K] [TransOrd K] [DecidableEq K]

/-- Every entry has a holder. -/
def AllHeld (fence : SelectionFenceState K) : Prop :=
  ∀ (key : K) entry, fence.entries[key]? = some entry → entry.isHeld = true

def SelectionFenceState.modeOf (fence : SelectionFenceState K) (id : UInt64) :
    Option SelectionFenceMode :=
  fence.waiters[id]?.map FenceWaiter.mode

/-- The first waiter of every key conflicts with its holders: it is exclusive, or the key is held
exclusively. -/
def Blocked (fence : SelectionFenceState K) : Prop :=
  ∀ (key : K) entry id rest, fence.entries[key]? = some entry → entry.waiters = id :: rest →
    fence.modeOf id = some .exclusive ∨ entry.writer = true

namespace System

/-- The live permits and the granted futures of a key in a mode. -/
def holders (sys : System K) (key : K) (mode : SelectionFenceMode) : Nat :=
  sys.permits.count ⟨key, mode⟩ +
    view.count sys.futures sys.fence.waiters (view.granted ⟨key, mode⟩)

structure Agrees (sys : System K) : Prop where
  sound : Sound sys.permits sys.fence sys.futures sys.log
  allHeld : AllHeld sys.fence

end System

/-! ## Granting -/

/-- The loop stops behind the last shared waiter at the front. -/
theorem takeShared_ok {waiters : BTreeMap UInt64 FenceWaiter} (line : List UInt64)
    (present : ∀ id ∈ line, ∃ w, waiters[id]? = some w) :
    ∃ ids rest, takeShared waiters line = .ok (ids, rest) ∧ line = ids ++ rest ∧
      (∀ id ∈ ids, ∃ w, waiters[id]? = some w ∧ w.mode = .shared) ∧
      ∀ id ∈ rest.head?, ∃ w, waiters[id]? = some w ∧ w.mode = .exclusive := by
  induction line with
  | nil => exact ⟨[], [], rfl, rfl, by simp, by simp⟩
  | cons id line ih =>
    obtain ⟨w, there⟩ := present id List.mem_cons_self
    simp only [takeShared, there, expectSome]
    by_cases mode : w.mode = .shared
    · obtain ⟨ids, rest, taken, split, shared, behind⟩ :=
        ih fun id member => present id (List.mem_cons_of_mem _ member)
      refine ⟨id :: ids, rest, ?_, by rw [split]; rfl, fun other member => ?_, behind⟩
      · change (if w.mode ≠ .shared then _ else _) = _
        rw [if_neg (not_not.mpr mode), taken]
        rfl
      · rcases List.mem_cons.mp member with rfl | later
        · exact ⟨w, there, mode⟩
        · exact shared other later
    · refine ⟨[], id :: line, ?_, rfl, by simp, fun other first => ?_⟩
      · change (if w.mode ≠ .shared then _ else _) = _
        rw [if_pos mode]
      · cases first
        refine ⟨w, there, ?_⟩
        cases exclusive : w.mode with
        | shared => exact absurd exclusive mode
        | exclusive => rfl

/-- What granting leaves behind: entries are held, and a waiter in front is exclusive. -/
structure Granted (before after : SelectionFenceState K) (key : K) : Prop where
  held : ∀ entry, after.entries[key]? = some entry → entry.isHeld = true
  others : ∀ other, key ≠ other → after.entries[other]? = before.entries[other]?
  modes : ∀ id, after.modeOf id = before.modeOf id
  front : ∀ entry id rest, after.entries[key]? = some entry → entry.waiters = id :: rest →
    after.modeOf id = some .exclusive ∨ entry.writer = true

open SelectionFenceState

namespace Sound

variable {held : List (SelectionFencePermit K)} {fence : SelectionFenceState K}
  {futures : BTreeMap Nat (SelectionFenceAcquire K)} {log : List (Event K)} {name : Nat}
  {future : SelectionFenceAcquire K} {id : UInt64} {waiter : FenceWaiter} {key : K}

theorem grantWaiters_modes {ids : List UInt64} {waiters after : BTreeMap UInt64 FenceWaiter}
    {wakers : List Waker} (granted : grantWaiters ids waiters = .ok (wakers, after)) (id : UInt64) :
    after[id]?.map FenceWaiter.mode = waiters[id]?.map FenceWaiter.mode := by
  induction ids generalizing waiters wakers with
  | nil =>
    cases granted
    rfl
  | cons first ids ih =>
    simp only [grantWaiters] at granted
    obtain ⟨w, there, granted⟩ := bind_eq_ok.mp granted
    obtain ⟨⟨wakers', after'⟩, later, rest⟩ := bind_eq_ok.mp granted
    cases rest
    rw [ih later, get_insert]
    split
    · next same =>
      subst same
      cases found : waiters[first]? with
      | none =>
        rw [found] at there
        cases there
      | some w' =>
        rw [found] at there
        cases there
        rfl
    · rfl

variable [LawfulEqOrd K]

section

variable (sound : Sound held fence futures log) {entry : FenceEntry}
  (atKey : fence.entries[key]? = some entry) (free : entry.isHeld = false)

include sound atKey free

/-- A free key with a line goes to one exclusive waiter, or to all shared ones in front. -/
theorem chosen {rest : List UInt64} (waiting : entry.waiters = id :: rest) :
    ∃ ids entry' wakers waiters,
      chooseGrants fence.waiters entry id rest = .ok (ids, entry') ∧
      grantWaiters ids fence.waiters = .ok (wakers, waiters) ∧
      Sound held
        { fence with entries := fence.entries.insert key entry', waiters := waiters } futures
        (log ++ ids.map (.granted key)) ∧
      entry'.isHeld = true ∧
      ∀ first ∈ entry'.waiters.head?, entry'.writer = true ∨
        fence.modeOf first = some .exclusive := by
  have unheld : entry.writer = false ∧ entry.readers = 0 := by
    rw [isHeld, Bool.or_eq_false_iff, decide_eq_false_iff_not] at free
    exact ⟨free.1, by omega⟩
  have queue := sound.line_of_entry atKey
  rw [waiting] at queue
  have present : ∀ other ∈ id :: rest, ∃ w, fence.waiters[other]? = some w := by
    intro other member
    obtain ⟨_, _, w, -, -, -, there, -⟩ :=
      sound.waiter_of_line (by rw [queue]; exact member : other ∈ line key log)
    exact ⟨w, there⟩
  obtain ⟨waiter, there⟩ := present id List.mem_cons_self
  simp only [chooseGrants, there, expectSome, ok_bind]
  cases mode : waiter.mode with
  | exclusive =>
    have one := sound.granted_one atKey waiting there unheld.1 fun _ => unheld.2
    have hold : { entry with waiters := rest }.hold waiter.mode =
        { entry with waiters := rest, writer := true } := by
      rw [mode]
      rfl
    rw [hold] at one
    refine ⟨[id], { entry with waiters := rest, writer := true }, waiter.waker.toList ++ [],
      fence.waiters.insert id { waiter with status := .granted, waker := none }, rfl, ?_, one, rfl,
      fun _ _ => .inl rfl⟩
    simp only [grantWaiters, there, expectSome]
    rfl
  | shared =>
    obtain ⟨ids, rest', taken, split, shared, behind⟩ := takeShared_ok (id :: rest) present
    obtain ⟨wakers, waiters, granted, kept⟩ :=
      sound.granted_shared ids atKey (waiting.trans split) unheld.1 shared
    refine ⟨ids, { entry with waiters := rest', readers := entry.readers + ids.length }, wakers,
      waiters, ?_, granted, kept, ?_, fun first here => .inr ?_⟩
    · simp only [taken, ok_bind]
    · -- The first waiter is shared, so the loop took at least that one.
      cases ids with
      | nil =>
        rw [List.nil_append] at split
        obtain ⟨w, again, exclusive⟩ := behind id (by rw [← split]; rfl)
        rw [there] at again
        cases again
        rw [mode] at exclusive
        cases exclusive
      | cons first ids => simp [isHeld]
    · obtain ⟨w, atFirst, exclusive⟩ := behind first here
      rw [modeOf, atFirst, Option.map_some, exclusive]

/-- A key that is not held goes to the front of its line; without a line its entry is removed. -/
theorem granted_free :
    ∃ released, grantFenceLocked fence key = .ok released ∧
      Sound held released.state futures (log ++ released.events) ∧
      Granted fence released.state key := by
  simp only [grantFenceLocked, atKey, free, Bool.false_eq_true, if_false]
  cases waiting : entry.waiters with
  | nil =>
    refine ⟨_, rfl, ?_, ?_, ?_, fun _ => rfl, ?_⟩
    · rw [List.append_nil]
      exact sound.erased atKey free waiting
    · exact of_get_erase
    · exact fun other different => get_erase_ne _ different
    · exact fun e id rest found => absurd found (get_erase_self_ne _ _ e)
  | cons id rest =>
    obtain ⟨ids, entry', wakers, waiters, chosen, granted, kept, isHeld, front⟩ :=
      sound.chosen atKey free waiting
    have modes := grantWaiters_modes granted
    refine ⟨⟨ids.map (.granted key), wakers,
      { fence with entries := fence.entries.insert key entry', waiters := waiters }⟩, ?_, kept,
      ?_, fun other different => get_insert_ne _ _ different, modes, ?_⟩
    · simp only [chosen, granted, ok_bind]
    · exact of_get_insert isHeld
    · intro e first rest' found waits
      rw [get_insert_self] at found
      cases found
      rw [modeOf, modes]
      exact (front first (by rw [waits]; rfl)).symm

end

/-- A claim that is given back frees its key, or leaves it to the other readers. -/
theorem passed_on {mode : SelectionFenceMode}
    (sound : Sound (⟨key, mode⟩ :: held) fence futures log) (allHeld : AllHeld fence) :
    ∃ released, releaseFenceLocked fence key mode = .ok released ∧
      Sound held released.state futures (log ++ released.events) ∧ AllHeld released.state ∧
      (Blocked fence → Blocked released.state) := by
  obtain ⟨entry, atKey, kept⟩ := sound.released
  simp only [releaseFenceLocked, atKey]
  have others : ∀ other, key ≠ other → ∀ e : FenceEntry,
      (fence.entries.insert key (entry.release mode))[other]? = some e → e.isHeld = true := by
    intro other different e found
    rw [get_insert_ne _ _ different] at found
    exact allHeld other e found
  cases free : (entry.release mode).isHeld with
  | false =>
    obtain ⟨released, ran, after, granted⟩ := kept.granted_free (get_insert_self ..) free
    refine ⟨released, ran, after, fun other e found => ?_, fun blocked other e first rest found =>
      ?_⟩
    · by_cases same : key = other
      · subst same
        exact granted.held e found
      · rw [granted.others other same] at found
        exact others other same e found
    · by_cases same : key = other
      · subst same
        exact granted.front e first rest found
      · rw [granted.others other same, get_insert_ne _ _ same] at found
        rw [granted.modes]
        exact blocked other e first rest found
  | true =>
    have unchanged : grantFenceLocked
        { fence with entries := fence.entries.insert key (entry.release mode) } key =
        .ok ⟨[], [], { fence with entries := fence.entries.insert key (entry.release mode) }⟩ := by
      simp only [grantFenceLocked, get_insert_self, free, if_true]
    refine ⟨_, unchanged, ?_, fun other e found => ?_, fun blocked other e first rest found => ?_⟩
    · rw [List.append_nil]
      exact kept
    · by_cases same : key = other
      · subst same
        rw [get_insert_self] at found
        cases found
        exact free
      · exact others other same e found
    · by_cases same : key = other
      · subst same
        rw [get_insert_self] at found
        cases found
        intro waits
        cases mode with
        | shared => exact blocked key entry first rest atKey waits
        | exclusive =>
          -- An exclusive holder was alone, so the key would be free.
          rcases blocked key entry first rest atKey waits with exclusive | writer
          · exact .inl exclusive
          · have alone := sound.exclusion key entry atKey writer
            simp [isHeld, release, alone] at free
      · rw [get_insert_ne _ _ same] at found
        exact blocked other e first rest found

end Sound

/-! ## Operations -/

namespace Sound

variable {held : List (SelectionFencePermit K)} {fence : SelectionFenceState K}
  {futures : BTreeMap Nat (SelectionFenceAcquire K)} {log : List (Event K)} {name : Nat}
  {future : SelectionFenceAcquire K} {id : UInt64} {waiter : FenceWaiter} {key : K}

section

variable (sound : Sound held fence futures log)

include sound

theorem open_of_unfinished (found : futures[name]? = some future)
    (unfinished : future.completed = false) : future.acquired = false := by
  cases acquired : future.acquired with
  | false => rfl
  | true =>
    have finished := (sound.steady name future found).admitted acquired
    rw [unfinished] at finished
    cases finished

/-- The first section of a poll keeps the waiter, whatever it reads. -/
theorem polled_registered (found : futures[name]? = some future) (has : future.waiterId = some id)
    (unfinished : future.completed = false) (unsettled : future.settling = none) (waker : Waker)
    (now : Nat) :
    ∃ polled, pollRegistered fence future id waker now = .ok polled ∧ polled.events = [] ∧
      polled.result.permit = [] ∧ polled.state.entries = fence.entries ∧
      (∀ other, polled.state.modeOf other = fence.modeOf other) ∧
      Sound held polled.state (futures.insert name polled.future) log := by
  obtain ⟨queued, hall⟩ := sound.hall
  obtain ⟨waiter, there⟩ := hall.live found has (by simp [view, unfinished])
  have open_ := sound.open_of_unfinished found unfinished
  have mode := (sound.steady name future found).mode waiter
    (by rw [View.slot_of_ticket has, there])
  have modes : ∀ w : Option Waker, ∀ other : UInt64,
      (fence.waiters.insert id { waiter with waker := w })[other]?.map FenceWaiter.mode =
        fence.waiters[other]?.map FenceWaiter.mode := by
    intro w other
    rw [get_insert]
    split
    · next same => rw [← same, there]; rfl
    · rfl
  have settles : waiter.status ≠ .waiting → Sound held fence
      (futures.insert name { future with settling := some waiter.status }) log := by
    intro turned
    have kept := sound.touched found has there { future with settling := some waiter.status }
      waiter.waker rfl rfl has open_
      ⟨fun acquired => absurd (open_.symm.trans acquired) (by simp),
        fun read settling => by cases settling; exact ⟨unfinished, turned, _, rfl, rfl⟩,
        fun w here => by cases here; exact mode⟩
    rw [insert_same _ there] at kept
    exact kept
  simp only [pollRegistered, there, expectSome, ok_bind]
  cases status : waiter.status with
  | waiting =>
    have kept : ∀ g : SelectionFenceAcquire K, g.key = future.key → g.mode = future.mode →
        g.waiterId = some id → g.acquired = false → g.settling = none →
        Sound held { fence with
          waiters := fence.waiters.insert id { waiter with waker := some waker } }
          (futures.insert name g) log := by
      intro g keyed sameMode ticketed closed none_
      refine sound.touched found has there g (some waker) keyed sameMode ticketed closed
        ⟨fun acquired => ?_, fun status settling => ?_, fun w here => ?_⟩
      · rw [closed] at acquired
        cases acquired
      · rw [none_] at settling
        cases settling
      · cases here
        rw [sameMode]
        exact mode
    rw [status] at kept
    have sameModes := modes (some waker)
    rw [status] at sameModes
    dsimp only
    split
    · exact ⟨_, rfl, rfl, rfl, rfl, sameModes, kept _ rfl rfl has open_ rfl⟩
    · exact ⟨_, rfl, rfl, rfl, rfl, sameModes, kept _ rfl rfl has open_ unsettled⟩
  | granted =>
    refine ⟨_, rfl, rfl, rfl, rfl, fun _ => rfl, ?_⟩
    have kept := settles (by simp [status])
    rw [status] at kept
    exact kept
  | closed =>
    refine ⟨_, rfl, rfl, rfl, rfl, fun _ => rfl, ?_⟩
    have kept := settles (by simp [status])
    rw [status] at kept
    exact kept

/-- The second section of a poll removes the waiter and returns what the first has read. -/
theorem polled_settled (found : futures[name]? = some future) (has : future.waiterId = some id)
    {status : FenceWaiterStatus} (settling : future.settling = some status) :
    let polled := pollSettled fence future id status
    polled.events = [] ∧ polled.state.entries = fence.entries ∧
      polled.state.waiters = fence.waiters.erase id ∧
      (∃ w, fence.waiters[id]? = some w ∧ w.status ≠ .waiting) ∧
      Sound (polled.result.permit ++ held) polled.state (futures.insert name polled.future) log :=
        by
  obtain ⟨unfinished, turned, waiter, slot, rfl⟩ :=
    (sound.steady name future found).settling status settling
  rw [View.slot_of_ticket has] at slot
  have kept : ∀ g : SelectionFenceAcquire K, g.key = future.key → g.waiterId = some id →
      g.completed = true → g.settling = none →
      Sound (if waiter.status = .granted then ⟨future.key, future.mode⟩ :: held else held)
        { fence with waiters := fence.waiters.erase id } (futures.insert name g) log := by
    intro g keyed ticketed finished none_
    exact sound.vacated found has slot turned (get_insert_others _ _ _)
      (of_get_insert ⟨keyed, ticketed, finished, none_⟩)
  cases status : waiter.status with
  | waiting => exact absurd status turned
  | granted =>
    refine ⟨rfl, rfl, rfl, ⟨waiter, slot, turned⟩, ?_⟩
    have taken := kept future.admitted rfl has rfl rfl
    rw [if_pos status] at taken
    exact taken
  | closed =>
    refine ⟨rfl, rfl, rfl, ⟨waiter, slot, turned⟩, ?_⟩
    have taken := kept future.complete rfl has rfl rfl
    rw [if_neg (by simp [status])] at taken
    exact taken

/-- Whoever is in line keeps its mode when the waiter of another ticket changes. -/
theorem blocked_of_entries {after : SelectionFenceState K} (entries : after.entries = fence.entries)
    (modes : ∀ key, ∀ id ∈ line key log, after.modeOf id = fence.modeOf id)
    (blocked : Blocked fence) : Blocked after := by
  intro key entry id rest atKey waits
  rw [entries] at atKey
  have listed : id ∈ line key log := by
    rw [sound.line_of_entry atKey, waits]
    exact List.mem_cons_self
  rw [modes key id listed]
  exact blocked key entry id rest atKey waits

/-- A waiter that had its turn is in no line. -/
theorem modeOf_erase (there : fence.waiters[id]? = some waiter) (turned : waiter.status ≠ .waiting)
    {after : SelectionFenceState K} (waiters : after.waiters = fence.waiters.erase id) (key : K)
    (other : UInt64) (listed : other ∈ line key log) : after.modeOf other = fence.modeOf other := by
  obtain ⟨_, _, w, -, -, -, here, waits, -⟩ := sound.waiter_of_line listed
  have different : id ≠ other := by
    rintro rfl
    rw [there] at here
    cases here
    exact turned waits
  rw [modeOf, waiters, get_erase_ne _ different]
  rfl

end

variable [LawfulEqOrd K]

/-- A first poll passes, joins a line or is turned away. -/
theorem polled_first (sound : Sound held fence futures log) (allHeld : AllHeld fence)
    (few : joins log < 2 ^ 64) (found : futures[name]? = some future)
    (unregistered : future.waiterId = none) (unfinished : future.completed = false)
    (unsettled : future.settling = none) (waker : Waker) (now : Nat) :
    ∃ polled, pollFirst fence future waker now = .ok polled ∧
      Sound (polled.result.permit ++ held) polled.state (futures.insert name polled.future)
        (log ++ polled.events) ∧
      AllHeld polled.state ∧ (Blocked fence → Blocked polled.state) := by
  have finished : ∀ after : SelectionFenceAcquire K, after.waiterId = none →
      after.completed = true → after.settling = none →
      Sound held fence (futures.insert name after) log := by
    intro after none_ complete settled
    refine sound.unregistered (of_get found (View.slot_of_none unregistered)) none_
      ⟨fun _ => complete, fun status settling => ?_, fun w here => by cases here⟩
    rw [settled] at settling
    cases settling
  rw [pollFirst]
  split
  · refine ⟨_, rfl, ?_, allHeld, fun blocked => blocked⟩
    rw [List.append_nil]
    exact finished future.complete unregistered rfl rfl
  split
  · next available =>
    refine ⟨_, rfl, (finished future.admitted unregistered rfl rfl).entered available,
      forall_insert ?_ allHeld, ?_⟩
    · cases future.mode <;> simp [hold, isHeld]
    · intro blocked key entry id rest atKey waits
      rw [get_insert] at atKey
      split at atKey
      · cases atKey
        -- The key is available, so nobody waits for it.
        rw [immediatelyAvailable] at available
        cases here : fence.entries[future.key]? with
        | none =>
          rw [here] at waits
          cases mode : future.mode <;> rw [mode] at waits <;> cases waits
        | some e =>
          rw [here] at waits available
          simp only [Option.all_some, Bool.and_eq_true, List.isEmpty_iff] at available
          cases mode : future.mode <;> rw [mode] at waits <;>
            exact absurd (available.1.2.symm.trans waits) (by simp)
      · exact blocked key entry id rest atKey waits
  · next contended =>
    obtain ⟨entry, atKey⟩ : ∃ entry, fence.entries[future.key]? = some entry := by
      cases here : fence.entries[future.key]? with
      | none =>
        rw [here] at contended
        exact absurd rfl contended
      | some entry => exact ⟨entry, rfl⟩
    obtain ⟨-, absent⟩ := sound.room.fresh (toNat_next sound.next few)
    simp only [atKey, expectSome]
    refine ⟨_, rfl, sound.registered few found unregistered unfinished unsettled atKey (some waker)
      now, forall_insert (allHeld future.key entry atKey) allHeld, ?_⟩
    · intro blocked key e id rest found waits
      -- Who was in line before keeps its mode under the new ticket.
      have older : ∀ k, ∀ other ∈ line k log, (fence.waiters.insert fence.nextWaiterId
          ⟨future.mode, .waiting, some waker⟩)[other]?.map FenceWaiter.mode =
          fence.modeOf other := by
        intro k other listed
        obtain ⟨_, _, w, -, -, -, here, -⟩ := sound.waiter_of_line listed
        have different : fence.nextWaiterId ≠ other := by
          rintro rfl
          rw [absent] at here
          cases here
        rw [get_insert_ne _ _ different]
        rfl
      rw [get_insert] at found
      split at found
      · next same =>
        cases found
        cases queue : entry.waiters with
        | nil =>
          rw [queue] at waits
          cases waits
          simp only [immediatelyAvailable, atKey, Option.all_some, queue, List.isEmpty_nil,
            Bool.and_true, Bool.and_eq_true, Bool.not_eq_true', Bool.or_eq_true,
            decide_eq_true_eq, not_and, not_or] at contended
          rw [modeOf, get_insert_self]
          cases writer : entry.writer with
          | true => exact .inr rfl
          | false =>
            refine .inl ?_
            cases mode : future.mode with
            | shared => exact absurd mode (contended writer).1
            | exclusive => rfl
        | cons first others =>
          rw [queue] at waits
          cases waits
          have listed : id ∈ line future.key log := by
            rw [sound.line_of_entry atKey, queue]
            exact List.mem_cons_self
          exact (blocked future.key entry id others atKey queue).imp_left
            (older future.key id listed).trans
      · have listed : id ∈ line key log := by
          rw [sound.line_of_entry found, waits]
          exact List.mem_cons_self
        exact (blocked key e id rest found waits).imp_left (older key id listed).trans

end Sound

/-- An exclusive waiter at the front of a line is not dropped while readers hold its key and a
shared waiter is next. -/
def Unhindered (sys : System K) : Action K → Prop
  | .dropAcquire name => ∀ future id next rest entry,
      sys.futures[name]? = some future → future.waiterId = some id →
      sys.fence.entries[future.key]? = some entry → entry.waiters = id :: next :: rest →
      entry.writer = true ∨ sys.fence.modeOf next = some .exclusive
  | _ => True

namespace Sound

variable {held : List (SelectionFencePermit K)} {fence : SelectionFenceState K}
  {futures : BTreeMap Nat (SelectionFenceAcquire K)} {log : List (Event K)} {name : Nat}
  {future : SelectionFenceAcquire K} {id : UInt64} {waiter : FenceWaiter} {key : K}

variable [LawfulEqOrd K]

/-- Dropping a waiting future grants nothing, because the key of a line is held. -/
theorem dropped_waiting (sound : Sound held fence futures log) (allHeld : AllHeld fence)
    (found : futures[name]? = some future) (has : future.waiterId = some id)
    (there : fence.waiters[id]? = some waiter) (waits : waiter.status = .waiting) :
    ∃ entry after, fence.entries[future.key]? = some entry ∧
      after = { fence with
        waiters := fence.waiters.erase id
        entries := fence.entries.insert future.key
          { entry with waiters := entry.waiters.erase id } } ∧
      (do
        let (left, state) :=
          cancelWaiting { fence with waiters := fence.waiters.erase id } future.key id
        let released ← grantFenceLocked state future.key
        Except.ok { released with events := left ++ released.events }) =
          .ok ⟨[.left future.key id], [], after⟩ ∧
      Sound held after (futures.erase name) (log ++ [.left future.key id]) ∧ AllHeld after := by
  obtain ⟨entry, atKey, cancelled, kept⟩ := sound.cancelled found has there waits
  have isHeld := allHeld future.key entry atKey
  refine ⟨entry, _, atKey, rfl, ?_, kept, forall_insert isHeld allHeld⟩
  rw [cancelled]
  simp only [grantFenceLocked, get_insert_self]
  rw [if_pos (by simpa [FenceEntry.isHeld] using isHeld)]
  rfl

theorem blocked_cancelled (sound : Sound held fence futures log)
    (found : futures[name]? = some future) (has : future.waiterId = some id)
    {entry : FenceEntry} (atKey : fence.entries[future.key]? = some entry)
    (unhindered : ∀ next rest, entry.waiters = id :: next :: rest →
      entry.writer = true ∨ fence.modeOf next = some .exclusive)
    (blocked : Blocked fence) :
    Blocked { fence with
      waiters := fence.waiters.erase id
      entries := fence.entries.insert future.key
        { entry with waiters := entry.waiters.erase id } } := by
  have modes : ∀ other ≠ id, modeOf { fence with
      waiters := fence.waiters.erase id
      entries := fence.entries.insert future.key
        { entry with waiters := entry.waiters.erase id } } other = fence.modeOf other := by
    intro other different
    rw [modeOf, get_erase_ne _ (Ne.symm different)]
    rfl
  have nodup := sound.room.nodup future.key
  rw [sound.line_of_entry atKey] at nodup
  intro key e first rest atOther front
  rw [get_insert] at atOther
  split at atOther
  · cases atOther
    simp only at front ⊢
    have different : first ≠ id := by
      rintro rfl
      have member : first ∈ entry.waiters.erase first := by rw [front]; exact List.mem_cons_self
      exact (nodup.mem_erase_iff.mp member).1 rfl
    rw [modes first different]
    cases queue : entry.waiters with
    | nil =>
      rw [queue] at front
      cases front
    | cons head others =>
      by_cases same : head = id
      · subst same
        rw [queue, List.erase_cons_head] at front
        subst front
        exact (unhindered first rest queue).symm
      · rw [queue, List.erase_cons_tail (by simpa using same)] at front
        cases front
        exact blocked future.key entry first others atKey queue
  · next other =>
    have different : first ≠ id := by
      rintro rfl
      have listed : first ∈ line key log := by
        rw [sound.line_of_entry atOther, front]
        exact List.mem_cons_self
      exact other ((sound.room.mem_line_iff found has).mp listed).1
    rw [modes first different]
    exact blocked key e first rest atOther front

theorem dropped (sound : Sound held fence futures log) (allHeld : AllHeld fence)
    (found : futures[name]? = some future) :
    ∃ released, dropAcquire fence future = .ok released ∧
      Sound held released.state (futures.erase name) (log ++ released.events) ∧
      AllHeld released.state ∧
      ((∀ id next rest entry, future.waiterId = some id →
          fence.entries[future.key]? = some entry → entry.waiters = id :: next :: rest →
          entry.writer = true ∨ fence.modeOf next = some .exclusive) →
        Blocked fence → Blocked released.state) := by
  have erased : ∀ b ≠ name, (futures.erase name)[b]? = futures[b]? := get_erase_others _ _
  have unslotted : view.slot fence.waiters future = none →
      Sound held fence (futures.erase name) (log ++ []) := by
    intro absent
    rw [List.append_nil]
    exact sound.dropped_unregistered found absent
  obtain ⟨queued, hall⟩ := sound.hall
  rw [dropAcquire]
  split
  · next acquired =>
    exact ⟨_, rfl, unslotted (hall.spent found acquired), allHeld, fun _ blocked => blocked⟩
  split
  · next none_ =>
    exact ⟨_, rfl, unslotted (View.slot_of_none none_), allHeld, fun _ blocked => blocked⟩
  · next id has =>
    split
    · next absent =>
      exact ⟨_, rfl, unslotted (by rw [View.slot_of_ticket has, absent]), allHeld,
        fun _ blocked => blocked⟩
    · next waiter there =>
      have vacated : waiter.status ≠ .waiting →
          Sound (if waiter.status = .granted then ⟨future.key, future.mode⟩ :: held else held)
            { fence with waiters := fence.waiters.erase id } (futures.erase name) log := by
        intro turned
        exact sound.vacated found has there turned erased of_get_erase
      have stays : waiter.status ≠ .waiting → Blocked fence →
          Blocked { fence with waiters := fence.waiters.erase id } := fun turned =>
        sound.blocked_of_entries rfl (sound.modeOf_erase there turned rfl)
      have mode := (sound.steady name future found).mode waiter
        (by rw [View.slot_of_ticket has, there])
      dsimp only
      cases status : waiter.status with
      | waiting =>
        obtain ⟨entry, after, atKey, rfl, ran, kept, heldAfter⟩ :=
          sound.dropped_waiting allHeld found has there status
        refine ⟨_, ran, kept, heldAfter, fun unhindered blocked => ?_⟩
        exact sound.blocked_cancelled found has atKey
          (fun next rest front => unhindered id next rest entry has atKey front) blocked
      | granted =>
        have taken := vacated (by simp [status])
        rw [if_pos status, ← mode] at taken
        obtain ⟨released, ran, kept, heldAfter, keeps⟩ := taken.passed_on allHeld
        exact ⟨released, ran, kept, heldAfter,
          fun _ blocked => keeps (stays (by simp [status]) blocked)⟩
      | closed =>
        have taken := vacated (by simp [status])
        rw [if_neg (by simp [status])] at taken
        refine ⟨_, rfl, ?_, allHeld, fun _ blocked => stays (by simp [status]) blocked⟩
        rw [List.append_nil]
        exact taken

end Sound

/-- No locked section panics, and every action keeps the fence and its users in agreement. -/
theorem System.Agrees.performs [LawfulEqOrd K] {sys : System K} (agrees : sys.Agrees)
    (few : joins sys.log < 2 ^ 64) (action : Action K) :
    ∃ reply after, perform sys action = .ok (reply, after) ∧ after.Agrees ∧
      (Unhindered sys action → Blocked sys.fence → Blocked after.fence) := by
  have polled_held : ∀ (name : Nat) (polled : Polled K),
      (sys.polled name polled).permits = sys.permits ++ polled.result.permit := fun _ _ => rfl
  cases action with
  | acquire name key mode maxWait =>
    simp only [perform]
    split
    · exact ⟨_, _, rfl, agrees, fun _ blocked => blocked⟩
    · next free =>
      refine ⟨_, _, rfl, ⟨agrees.sound.unregistered (fun f found => ?_) rfl ⟨fun acquired => ?_,
        fun status settling => ?_, fun w here => ?_⟩, agrees.allHeld⟩, fun _ blocked => blocked⟩
      · rw [free] at found
        cases found
      · cases acquired
      · cases settling
      · cases here
  | poll name waker now =>
    simp only [perform]
    split
    · exact ⟨_, _, rfl, agrees, fun _ blocked => blocked⟩
    · next future found =>
      split
      · exact ⟨_, _, rfl, agrees, fun _ blocked => blocked⟩
      split
      · exact ⟨_, _, rfl, agrees, fun _ blocked => blocked⟩
      · next unsettled unfinished =>
        rw [Bool.not_eq_true, Option.isSome_eq_false_iff, Option.isNone_iff_eq_none] at unsettled
        rw [Bool.not_eq_true] at unfinished
        rw [poll]
        cases has : future.waiterId with
        | none =>
          obtain ⟨polled, ran, kept, heldAfter, keeps⟩ := agrees.sound.polled_first agrees.allHeld
            few found has unfinished unsettled waker now
          refine ⟨_, sys.polled name polled, by rw [ran]; rfl, ⟨?_, heldAfter⟩,
            fun _ => keeps⟩
          exact kept.perm List.perm_append_comm
        | some id =>
          obtain ⟨polled, ran, events, permit, entries, modes, kept⟩ :=
            agrees.sound.polled_registered found has unfinished unsettled waker now
          refine ⟨_, sys.polled name polled, by simp only [ran]; rfl, ⟨?_, ?_⟩, fun _ => ?_⟩
          · rw [polled_held, permit, List.append_nil]
            simpa [System.polled, events] using kept
          · intro key entry here
            rw [System.polled, entries] at here
            exact agrees.allHeld key entry here
          · exact agrees.sound.blocked_of_entries entries fun _ other _ => modes other
  | settle name =>
    simp only [perform]
    split
    · exact ⟨_, _, rfl, agrees, fun _ blocked => blocked⟩
    · next future found =>
      split
      · next id status has settling =>
        obtain ⟨events, entries, waiters, ⟨w, there, turned⟩, kept⟩ :=
          agrees.sound.polled_settled found has settling
        refine ⟨_, _, rfl, ⟨?_, ?_⟩, fun _ => ?_⟩
        · simp only [System.polled, events, List.append_nil]
          exact kept.perm List.perm_append_comm
        · intro key entry here
          rw [System.polled, entries] at here
          exact agrees.allHeld key entry here
        · exact agrees.sound.blocked_of_entries entries
            (agrees.sound.modeOf_erase there turned waiters)
      · exact ⟨_, _, rfl, agrees, fun _ blocked => blocked⟩
  | dropAcquire name =>
    simp only [perform]
    split
    · exact ⟨_, _, rfl, agrees, fun _ blocked => blocked⟩
    · next future found =>
      split
      · exact ⟨_, _, rfl, agrees, fun _ blocked => blocked⟩
      · obtain ⟨released, ran, kept, heldAfter, keeps⟩ := agrees.sound.dropped agrees.allHeld found
        refine ⟨_, _, by rw [ran]; rfl, ⟨kept, heldAfter⟩, fun unhindered => keeps ?_⟩
        intro id next rest entry has atKey front
        exact unhindered future id next rest entry found has atKey front
  | dropPermit index =>
    simp only [perform]
    split
    · exact ⟨_, _, rfl, agrees, fun _ blocked => blocked⟩
    · next permit here =>
      have taken : (permit :: sys.permits.eraseIdx index).Perm sys.permits := by
        obtain ⟨inside, rfl⟩ := List.getElem?_eq_some_iff.mp here
        exact List.getElem_cons_eraseIdx_perm inside
      obtain ⟨released, ran, kept, heldAfter, keeps⟩ :=
        (agrees.sound.perm taken.symm).passed_on agrees.allHeld
      refine ⟨_, _, by rw [ran]; rfl, ⟨kept, heldAfter⟩, fun _ => ?_⟩
      exact keeps
  | close =>
    have kept := agrees.sound.closed agrees.allHeld
    refine ⟨_, _, rfl, ⟨kept, fun key entry here => ?_⟩, fun _ _ key entry id rest here waits => ?_⟩
    · have filtered := here
      change (ExtTreeMap.filter _ (ExtTreeMap.map _ sys.fence.entries))[key]? = _ at filtered
      rw [ExtTreeMap.getElem?_filter'] at filtered
      exact (Option.filter_eq_some_iff.mp filtered).2
    · have idle := kept.line_of_entry here
      rw [line_snoc, Event.advance, waits] at idle
      cases idle

/-! ## Whole runs -/

/-- What the fence promises in every state. -/
structure Exclusive (sys : System K) : Prop where
  exclusion : ∀ key, 0 < sys.holders key .exclusive →
    sys.holders key .exclusive = 1 ∧ sys.holders key .shared = 0
  readers : ∀ key, (sys.fence.entries[key]?).elim 0 FenceEntry.readers = sys.holders key .shared
  writer : ∀ key, (sys.fence.entries[key]?).elim false FenceEntry.writer = true ↔
    sys.holders key .exclusive = 1
  in_turn : Fair sys.log
  /-- The lines of the log are the queues of the fence, and those in line wait. -/
  lines : ∀ key, line key sys.log = sys.fence.queueOf key ∧
    ∀ id, id ∈ line key sys.log ↔ ∃ name, view.Waits sys.futures sys.fence.waiters key id name
  entries : ∀ key, key ∈ sys.fence.entries →
    0 < sys.holders key .shared + sys.holders key .exclusive ∨ line key sys.log ≠ []
  no_panic : ∀ action, ∃ reply after, perform sys action = .ok (reply, after)
  drained : sys.futures = ∅ → sys.permits = [] → sys.fence.entries = ∅ ∧ sys.fence.waiters = ∅

namespace System.Agrees

variable {sys : System K}

theorem holders_eq (agrees : sys.Agrees) (key : K) (mode : SelectionFenceMode) :
    sys.holders key mode = (sys.fence.entries[key]?).elim 0 fun entry => entry.holders mode :=
  agrees.sound.books ⟨key, mode⟩

theorem exclusive [LawfulEqOrd K] (agrees : sys.Agrees) (few : joins sys.log < 2 ^ 64) :
    Exclusive sys where
  exclusion key holds := by
    rw [agrees.holders_eq] at holds ⊢
    rw [agrees.holders_eq]
    cases found : sys.fence.entries[key]? with
    | none =>
      rw [found] at holds
      simp at holds
    | some entry =>
      rw [found] at holds
      have alone := agrees.sound.exclusion key entry found
      simp only [Option.elim_some, FenceEntry.holders] at holds ⊢
      split at holds
      · next writer => exact ⟨by rw [if_pos writer], alone writer⟩
      · omega
  readers key := by
    rw [agrees.holders_eq]
    cases sys.fence.entries[key]? <;> rfl
  writer key := by
    rw [agrees.holders_eq]
    cases sys.fence.entries[key]? with
    | none => simp
    | some entry => simp [FenceEntry.holders]
  in_turn := agrees.sound.fair
  lines key := ⟨(agrees.sound.queues key).symm, agrees.sound.room.lines key⟩
  entries key here := by
    obtain ⟨entry, found⟩ := (mem_iff_get ..).mp here
    have isHeld := agrees.allHeld key entry found
    rw [agrees.holders_eq, agrees.holders_eq, found]
    simp only [FenceEntry.isHeld, Bool.or_eq_true, decide_eq_true_eq] at isHeld
    simp only [Option.elim_some, FenceEntry.holders]
    rcases isHeld with writer | readers
    · rw [if_pos writer]
      exact .inl (by omega)
    · exact .inl (by omega)
  no_panic action := by
    obtain ⟨reply, after, performed, -⟩ := agrees.performs few action
    exact ⟨reply, after, performed⟩
  drained noFutures noPermits := by
    obtain ⟨queued, hall⟩ := agrees.sound.hall
    rw [noPermits, noFutures] at hall
    obtain ⟨waiters, ledger, -⟩ := hall.drained
    refine ⟨ExtTreeMap.ext_getElem? fun key => ?_, waiters⟩
    rw [ExtTreeMap.getElem?_empty]
    cases found : sys.fence.entries[key]? with
    | none => rfl
    | some entry =>
      have shared := ledger ⟨key, .shared⟩
      have exclusive := ledger ⟨key, .exclusive⟩
      have isHeld := agrees.allHeld key entry found
      simp only [SelectionFenceState.ledger, found, Option.elim_some, FenceEntry.holders]
        at shared exclusive
      simp only [FenceEntry.isHeld, shared, Nat.lt_irrefl, decide_false, Bool.or_false] at isHeld
      rw [if_pos isHeld] at exclusive
      cases exclusive

end System.Agrees

omit [DecidableEq K] in
theorem perform_appends (sys : System K) (action : Action K) :
    Appends System.log sys (perform sys action) := by
  cases action with
  | acquire name key mode maxWait =>
    rw [perform]
    split
    · exact .same
    · exact .more [] (List.append_nil _).symm
  | poll name waker now =>
    rw [perform]
    split
    · exact .same
    split
    · exact .same
    split
    · exact .same
    · exact .bind fun polled => .more polled.events rfl
  | settle name =>
    rw [perform]
    split
    · exact .same
    split
    · exact .more _ rfl
    · exact .same
  | dropAcquire name =>
    rw [perform]
    split
    · exact .same
    split
    · exact .same
    · exact .bind fun released => .more released.events rfl
  | dropPermit index =>
    rw [perform]
    split
    · exact .same
    · exact .bind fun released => .more released.events rfl
  | close => exact .more _ rfl

open SelectionFence.System

omit [DecidableEq K] in
theorem agrees_initial [DecidableEq K] : (initial : System K).Agrees :=
  ⟨sound_initial, fun key entry found => by
    simp [initial, new] at found⟩

theorem System.Agrees.step [LawfulEqOrd K] {before after : System K} {action : Action K}
    (agrees : before.Agrees) (few : joins before.log < 2 ^ 64) (taken : Step before action after) :
    after.Agrees ∧ (Unhindered before action → Blocked before.fence → Blocked after.fence) := by
  obtain ⟨reply, performed⟩ := taken
  obtain ⟨reply', after', performed', agrees, keeps⟩ := agrees.performs few action
  rw [performed] at performed'
  cases performed'
  exact ⟨agrees, keeps⟩

/-- Along every run that registers fewer waiters than their ids can number, a key held exclusively
has no other holder, and waiters get their key in the order of registration. -/
theorem reaches_exclusive [LawfulEqOrd K] {actions : List (Action K)} {sys : System K}
    (run : Run Step .initial actions sys) (few : joins sys.log < 2 ^ 64) : Exclusive sys := by
  refine (keeps_of_few agrees_initial perform_appends (fun _ action agrees few => ?_) run
    few).exclusive few
  obtain ⟨reply, after, performed, agrees, -⟩ := agrees.performs few action
  exact ⟨reply, after, performed, agrees⟩

/-- A reader holds the key, a writer and two readers line up behind it. The writer gets the key
when the first reader is done, both readers get it together when the writer drops it. One of them
passes it unpolled, the other one settles. -/
def readersAndWriter : List (Action String) :=
  [.acquire 0 "q" .shared 9, .poll 0 7 0, .acquire 1 "q" .exclusive 9, .poll 1 7 0,
    .acquire 2 "q" .shared 9, .poll 2 7 1, .acquire 3 "q" .shared 9, .poll 3 7 1,
    .dropPermit 0, .poll 1 7 2, .settle 1, .dropPermit 0, .dropAcquire 2, .poll 3 7 3, .settle 3]

theorem reaches_exclusive_readersAndWriter : ∃ sys,
    Run Step System.initial readersAndWriter sys ∧ joins sys.log < 2 ^ 64 ∧
      sys.log = [.entered "q", .joined "q" 0, .joined "q" 1, .joined "q" 2, .granted "q" 0,
        .granted "q" 1, .granted "q" 2] ∧
      sys.holders "q" .shared = 1 ∧ Exclusive sys := by
  have computed : (runAll (attempt perform) System.initial readersAndWriter).map
      (fun sys => (sys.log, sys.holders "q" .shared)) =
      some ([.entered "q", .joined "q" 0, .joined "q" 1, .joined "q" 2, .granted "q" 0,
        .granted "q" 1, .granted "q" 2], 1) := by decide +kernel
  obtain ⟨sys, reached, seen⟩ := Option.map_eq_some_iff.mp computed
  have run := runAll_run (attempt_performs _) reached
  obtain ⟨log, held⟩ := Prod.mk.inj seen
  have few : joins sys.log < 2 ^ 64 := by
    rw [log]
    decide
  exact ⟨sys, run, few, log, held, reaches_exclusive run few⟩

/-! ## A counter that wraps -/

section Wrapping

variable {key : K} {id : UInt64} {sys : System K}

/-- A writer holds the key and future 1 waits for it with id 0. The next id is `id`. -/
structure Crowded (key : K) (id : UInt64) (sys : System K) : Prop where
  isOpen : sys.fence.closed = false
  nextWaiterId : sys.fence.nextWaiterId = id
  entry : sys.fence.entries[key]? = some ⟨0, true, [0]⟩
  waiter : sys.fence.waiters[(0 : UInt64)]? = some ⟨.exclusive, .waiting, some 7⟩
  waiting : sys.futures[1]? = some ⟨key, .exclusive, 9, some 0, false, false, some 0, none⟩
  absent : sys.futures[3]? = none

def firstRequests : List (Action String) :=
  [.acquire 0 "q" .exclusive 9, .poll 0 7 0, .acquire 1 "q" .exclusive 9, .poll 1 7 0]

theorem crowded_firstRequests :
    ∃ sys, Run Step initial firstRequests sys ∧ Crowded "q" 1 sys := by
  have computed : (runAll (attempt perform) initial firstRequests).map (fun sys =>
      decide (sys.fence.closed = false ∧ sys.fence.nextWaiterId = 1 ∧
        sys.fence.entries["q"]? = some ⟨0, true, [0]⟩ ∧
        sys.fence.waiters[(0 : UInt64)]? = some ⟨.exclusive, .waiting, some 7⟩ ∧
        sys.futures[1]? = some ⟨"q", .exclusive, 9, some 0, false, false, some 0, none⟩ ∧
        sys.futures[3]? = none)) = some true := by decide +kernel
  obtain ⟨sys, reached, seen⟩ := Option.map_eq_some_iff.mp computed
  obtain ⟨isOpen, next, entry, waiter, waiting, absent⟩ := of_decide_eq_true seen
  exact ⟨sys, runAll_run (attempt_performs _) reached, isOpen, next, entry, waiter, waiting, absent⟩

/-- The state in which future 3 has registered. -/
def System.queued (sys : System K) (key : K) : System K where
  fence := { sys.fence with
    nextWaiterId := sys.fence.nextWaiterId + 1
    waiters := sys.fence.waiters.insert sys.fence.nextWaiterId ⟨.exclusive, .waiting, some 7⟩
    entries := sys.fence.entries.insert key ⟨0, true, [0, sys.fence.nextWaiterId]⟩ }
  permits := sys.permits
  futures := (sys.futures.insert 3 (acquireWithWait key .exclusive 9)).insert 3
    ⟨key, .exclusive, 9, some sys.fence.nextWaiterId, false, false, some 0, none⟩
  log := sys.log ++ [.joined key sys.fence.nextWaiterId]

/-- The state in which a registered future is gone with the waiter of an id. -/
def System.unqueued (sys : System K) (key : K) (id : UInt64) (name : Nat) : System K where
  fence := { sys.fence with
    waiters := sys.fence.waiters.erase id
    entries := sys.fence.entries.insert key ⟨0, true, [0]⟩ }
  permits := sys.permits
  futures := sys.futures.erase name
  log := sys.log ++ [.left key id]

namespace Crowded

omit [DecidableEq K]

theorem queues (crowded : Crowded key id sys) :
    Run Step sys [.acquire 3 key .exclusive 9, .poll 3 7 0] (sys.queued key) := by
  refine runAll_run (attempt_performs _) ?_
  simp [runAll, attempt, perform, crowded.absent, acquireWithWait, poll, pollFirst,
    crowded.isOpen, crowded.entry, immediatelyAvailable, expectSome, Except.toOption,
    queued, polled, Poll.permit, bind, Except.bind]

/-- A future that registers and is dropped uses up an id. -/
theorem visited (crowded : Crowded key id sys) (nonzero : id ≠ 0) :
    ∃ actions after, Run Step sys actions after ∧ Crowded key (id + 1) after := by
  have dropped : attempt perform (sys.queued key) (.dropAcquire 3) =
      some ((sys.queued key).unqueued key id 3) := by
    simp [attempt, perform, queued, unqueued, dropAcquire, crowded.nextWaiterId, cancelWaiting,
      grantFenceLocked, isHeld, Except.toOption, bind, Except.bind, nonzero.symm]
  refine ⟨_, _, crowded.queues.append (.single (attempt_performs _ _ _ _ dropped)),
    crowded.isOpen, by rw [← crowded.nextWaiterId]; rfl, by simp [unqueued], ?_, ?_,
    by simp [unqueued]⟩
  · simp [unqueued, queued, crowded.nextWaiterId, ExtTreeMap.getElem?_erase,
      ExtTreeMap.getElem?_insert, nonzero, crowded.waiter]
  · simp [unqueued, queued, ExtTreeMap.getElem?_erase, ExtTreeMap.getElem?_insert, crowded.waiting]

/-- When id 0 is handed out again, the drop of its first owner takes it from the second. -/
theorem loses (crowded : Crowded key 0 sys) :
    ∃ actions after, Run Step sys actions after ∧
      perform after (.poll 3 7 1) = .error "selection fence waiter missing" := by
  have dropped : attempt perform (sys.queued key) (.dropAcquire 1) =
      some ((sys.queued key).unqueued key 0 1) := by
    simp [attempt, perform, queued, unqueued, dropAcquire, crowded.nextWaiterId,
      crowded.waiting, ExtTreeMap.getElem?_insert, cancelWaiting, grantFenceLocked,
      isHeld, Except.toOption, bind, Except.bind]
  refine ⟨_, _, crowded.queues.append (.single (attempt_performs _ _ _ _ dropped)), ?_⟩
  simp [perform, queued, unqueued, poll, pollRegistered, expectSome,
    crowded.nextWaiterId, bind, Except.bind]

end Crowded

/-- After 2 ^ 64 registrations a poll fails inside its locked section. -/
theorem wrapped_id_loses_waiter : ∃ (actions : List (Action String)) (sys : System String),
    Run Step .initial actions sys ∧
      perform sys (.poll 3 7 1) = .error "selection fence waiter missing" := by
  obtain ⟨start, first, crowded⟩ := crowded_firstRequests
  obtain ⟨visits, middle, between, crowded⟩ := Run.wraps (fun _ _ => Crowded.visited) crowded
  obtain ⟨actions, sys, last, lost⟩ := Crowded.loses crowded
  exact ⟨_, sys, (first.append between).append last, lost⟩

end Wrapping

end SelectionFence
