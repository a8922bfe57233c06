import Fireweed.QueueGate
import Fireweed.WaitingLines.Holders

/-!
# One holder for each key

The holder of a key is not stored: an entry stands for it. The gate agrees with the
permits and futures outside of it if they form a hall whose ledger has one holder for
every entry, and the queues are the lines of the log. Every change that the gate makes
keeps this agreement. A key that is being released is in nobody's hand; it still
counts among those held outside.
-/

namespace QueueGate

open BTree List Std WaitingLines
open ByteAdmission (Waker expectSome)

variable {K : Type} [Ord K] [TransOrd K] [DecidableEq K]

/-- How the lines read futures and waiters. -/
def view : View K K (QueueGateAcquire K) Waiter where
  key := QueueGateAcquire.key
  claim := QueueGateAcquire.key
  ticket := QueueGateAcquire.waiterId
  active future := !future.completed
  spent := QueueGateAcquire.completed
  status := Waiter.status

namespace GateState

def queueOf (state : GateState K) (key : K) : List UInt64 :=
  (state.entries[key]?).elim [] QueueEntry.waiters

/-- An entry stands for one holder. -/
def ledger (state : GateState K) (key : K) : Nat := if (state.entries[key]?).isSome then 1 else 0

end GateState

/-- The gate agrees with the keys held and the futures outside of it. -/
structure Sound (limits : Limits) (held : List K) (gate : GateState K)
    (futures : BTreeMap Nat (QueueGateAcquire K)) (log : List (Event K)) : Prop where
  hall : Hall view futures gate.waiters log held gate.ledger gate.queued
  next : gate.nextWaiterId = UInt64.ofNat (joins log)
  admitted : ∀ (name : Nat) (future : QueueGateAcquire K), futures[name]? = some future →
    future.acquired = true → future.completed = true
  queues : ∀ key, gate.queueOf key = line key log
  within : gate.queued ≤ limits.maxQueued
  perKey : ∀ (key : K) entry, gate.entries[key]? = some entry →
    1 + entry.waiters.length ≤ limits.maxPerKey
  fair : Fair log

open GateState

theorem sound_initial (limits : Limits) : Sound limits [] (new : GateState K) ∅ [] where
  hall := by
    have ledger : (new : GateState K).ledger = fun _ => 0 := by
      funext key
      simp [ledger, new]
    rw [ledger]
    exact .empty
  next := rfl
  admitted name future found := by simp at found
  queues key := by simp [queueOf, new, line]
  within := Nat.zero_le _
  perKey key entry found := by simp [new] at found
  fair := fair_nil

namespace Sound

variable {limits : Limits} {held held' : List K} {gate : GateState K}
  {futures futures' : BTreeMap Nat (QueueGateAcquire K)} {log : List (Event K)} {name : Nat}
  {future : QueueGateAcquire K} {id : UInt64} {waiter : Waiter} {key : K}

section

variable (sound : Sound limits held gate futures log)

include sound

/-- Futures and waiters change; the entries, the counter and the lines stay. -/
theorem settle {waiters : BTreeMap UInt64 Waiter}
    (hall : Hall view futures' waiters log held' gate.ledger gate.queued)
    (admitted : ∀ (name : Nat) (future : QueueGateAcquire K), futures'[name]? = some future →
      future.acquired = true → future.completed = true) :
    Sound limits held' { gate with waiters := waiters } futures' log :=
  { sound with hall := hall, admitted := admitted }

/-- A future without a waiter comes or changes its flags. -/
theorem unregistered (before : ∀ f, futures[name]? = some f → view.slot gate.waiters f = none)
    (none_ : future.waiterId = none) (finished : future.acquired = true → future.completed = true) :
    Sound limits held gate (futures.insert name future) log :=
  sound.settle (sound.hall.unslotted name (get_insert_others _ _ _) before (of_get_insert none_))
    (forall_insert finished sound.admitted)

/-- A future without a waiter goes. -/
theorem dropped_unregistered (found : futures[name]? = some future)
    (absent : view.slot gate.waiters future = none) :
    Sound limits held gate (futures.erase name) log :=
  sound.settle (sound.hall.unslotted name (get_erase_others _ _) (of_get found absent) of_get_erase)
    (forall_erase sound.admitted)

end

section

variable (sound : Sound limits held gate futures log) (found : futures[name]? = some future)
  (has : future.waiterId = some id) (there : gate.waiters[id]? = some waiter)

include sound found has there

/-- A waiter stores another waker. -/
theorem touched (unfinished : future.completed = false) (waker : Option Waker) :
    Sound limits held { gate with
      waiters := gate.waiters.insert id { waiter with waker := waker } } futures log := by
  have touched := sound.hall.touch future { waiter with waker := waker } found has there rfl rfl has
    rfl unfinished
  rw [insert_same _ found] at touched
  exact sound.settle touched sound.admitted

/-- A future that had its turn gives up its waiter; a granted key passes to its permit, or to
whoever drops it. -/
theorem taken (turn : waiter.status ≠ .waiting) (others : ∀ b ≠ name, futures'[b]? = futures[b]?)
    (after : ∀ g, futures'[name]? = some g → g.key = future.key ∧ g.waiterId = some id ∧
      g.completed = true)
    (admitted : ∀ (name : Nat) (future : QueueGateAcquire K), futures'[name]? = some future →
      future.acquired = true → future.completed = true) :
    Sound limits (if waiter.status = .granted then future.key :: held else held)
      { gate with waiters := gate.waiters.erase id } futures' log := by
  refine sound.settle (sound.hall.vacate found has there turn others fun g atName => ?_) admitted
  obtain ⟨keyed, ticketed, finished⟩ := after g atName
  exact ⟨keyed, ticketed, by simp [view, finished]⟩

end

theorem entry_of_line (sound : Sound limits held gate futures log) (waits : id ∈ line key log) :
    ∃ entry, gate.entries[key]? = some entry ∧ entry.waiters = line key log := by
  have queue := sound.queues key
  rw [queueOf] at queue
  cases found : gate.entries[key]? with
  | none =>
    rw [found] at queue
    rw [← queue] at waits
    cases waits
  | some entry =>
    rw [found] at queue
    exact ⟨entry, rfl, queue⟩

variable [LawfulEqOrd K]

omit [TransOrd K] [DecidableEq K] [LawfulEqOrd K] in
/-- The order in which keys are held outside does not matter. -/
theorem perm [TransOrd K] [DecidableEq K] (sound : Sound limits held gate futures log)
    (same : held.Perm held') : Sound limits held' gate futures log :=
  { sound with
    hall := sound.hall.rebook (fun _ => rfl) (Nat.le_refl _) fun key => by
      rw [same.count_eq] }

/-- A free key gets its entry, and the caller a permit. -/
theorem entered (sound : Sound limits held gate futures log) (free : gate.entries[key]? = none) :
    Sound limits (key :: held) { gate with entries := gate.entries.insert key ⟨[]⟩ } futures
      (log ++ [.entered key]) := by
  have idle : line key log = [] := by
    rw [← sound.queues, queueOf, free]
    rfl
  have lines : ∀ other, line other (log ++ [.entered key]) = line other log :=
    fun other => line_snoc ..
  have joined : joins (log ++ [.entered key]) = joins log := joins_append ..
  refine ⟨sound.hall.rebook lines joined.ge fun other => ?_, by rw [joined, sound.next],
    sound.admitted, fun other => ?_, sound.within,
    forall_insert limits.perKey_positive sound.perKey, sound.fair.snoc idle⟩
  · rw [count_cons, ledger, ledger, get_insert]
    by_cases same : key = other
    · subst same
      simp [free]
    · simp [same]
  · rw [lines, queueOf, get_insert]
    split
    · next same => rw [← same, idle]; rfl
    · exact sound.queues other

/-- The ledger does not read the queues. -/
theorem ledger_insert {entry : QueueEntry} (there : gate.entries[key]? = some entry)
    (waiters : List UInt64) (rest : GateState K)
    (entries : rest.entries = gate.entries.insert key ⟨waiters⟩) : rest.ledger = gate.ledger := by
  funext other
  rw [ledger, ledger, entries, get_insert]
  by_cases same : key = other
  · subst same
    simp [there]
  · simp [same]

theorem registered (sound : Sound limits held gate futures log) (few : joins log < 2 ^ 64)
    (found : futures[name]? = some future) (unregistered : future.waiterId = none)
    (unfinished : future.completed = false) {entry : QueueEntry}
    (there : gate.entries[future.key]? = some entry)
    (room : 1 + entry.waiters.length < limits.maxPerKey) (below : gate.queued < limits.maxQueued)
    (waker : Option Waker) :
    Sound limits held
      { gate with
        nextWaiterId := gate.nextWaiterId + 1
        waiters := gate.waiters.insert gate.nextWaiterId ⟨.waiting, waker⟩
        entries := gate.entries.insert future.key ⟨entry.waiters ++ [gate.nextWaiterId]⟩
        queued := gate.queued + 1 }
      (futures.insert name { future with waiterId := some gate.nextWaiterId })
      (log ++ [.joined future.key gate.nextWaiterId]) := by
  have number := toNat_next sound.next few
  have joined : joins (log ++ [.joined future.key gate.nextWaiterId]) = joins log + 1 :=
    joins_append ..
  let waiting : QueueGateAcquire K := { future with waiterId := some gate.nextWaiterId }
  have hall := sound.hall.join waiting ⟨.waiting, waker⟩ found unregistered rfl number rfl
    unfinished
  refine ⟨?_, ?_, ?_, fun key => ?_, below, forall_insert ?_ sound.perKey,
    sound.fair.snoc trivial⟩
  · rw [ledger_insert there _ _ rfl]
    exact hall
  · rw [joined, sound.next]
    exact (UInt64.ofNat_add ..).symm
  · exact forall_insert (sound.admitted name future found) sound.admitted
  · rw [line_snoc, Event.advance, queueOf, get_insert, ← sound.queues key]
    split
    · next same =>
      subst same
      rw [queueOf, there]
      rfl
    · rfl
  · simp only [length_append, length_singleton]
    omega

/-- A waiting future leaves its line. -/
theorem cancelled (sound : Sound limits held gate futures log)
    (found : futures[name]? = some future) (has : future.waiterId = some id)
    (there : gate.waiters[id]? = some waiter) (waits : waiter.status = .waiting) :
    let released := cancelWaiting { gate with waiters := gate.waiters.erase id } future.key id
    Sound limits held released.state (futures.erase name) (log ++ released.events) := by
  have listed : id ∈ line future.key log :=
    (sound.hall.toRoom.mem_line_iff found has).mpr ⟨rfl, waiter, there, waits⟩
  obtain ⟨entry, atKey, queue⟩ := sound.entry_of_line listed
  have joined : joins (log ++ [.left future.key id]) = joins log := joins_append ..
  simp only [cancelWaiting, atKey]
  rw [if_pos (queue ▸ listed)]
  refine ⟨?_, by rw [joined]; exact sound.next, forall_erase sound.admitted, fun key => ?_,
    Nat.le_trans (Nat.sub_le ..) sound.within, forall_insert ?_ sound.perKey,
    sound.fair.snoc trivial⟩
  · rw [ledger_insert atKey _ _ rfl]
    exact sound.hall.leave found has there waits
  · rw [line_snoc, Event.advance, queueOf, get_insert, ← sound.queues key]
    split
    · next same =>
      subst same
      rw [queueOf, atKey]
      rfl
    · rfl
  · have := sound.perKey future.key entry atKey
    have := length_erase_le (a := id) (l := entry.waiters)
    simp only
    omega

/-- A released key goes to the first waiter; without one its entry is removed. -/
theorem passed_on (sound : Sound limits (key :: held) gate futures log) :
    ∃ released, releaseKeyLocked gate key = .ok released ∧
      Sound limits held released.state futures (log ++ released.events) := by
  obtain ⟨⟨waiters⟩, atKey⟩ : ∃ entry, gate.entries[key]? = some entry := by
    have counted := sound.hall.books key
    rw [count_cons_self, ledger] at counted
    rw [← Option.isSome_iff_exists]
    by_contra absent
    rw [if_neg absent] at counted
    omega
  have queue : line key log = waiters := by
    rw [← sound.queues, queueOf, atKey]
    rfl
  simp only [releaseKeyLocked, atKey]
  cases waiters with
  | nil =>
    refine ⟨_, rfl, ?_⟩
    rw [append_nil]
    refine ⟨sound.hall.rebook (fun _ => rfl) (Nat.le_refl _) fun other => ?_, sound.next,
      sound.admitted, fun other => ?_, sound.within, forall_erase sound.perKey, sound.fair⟩
    · rw [count_cons, ledger, ledger, get_erase]
      by_cases same : key = other
      · subst same
        simp [atKey]
      · simp [same]
    · rw [queueOf, get_erase]
      split
      · next same => rw [← same, queue]; rfl
      · exact sound.queues other
  | cons id rest =>
    have listed : id ∈ line key log := by rw [queue]; exact mem_cons_self
    obtain ⟨name, future, waiter, found, keyed, has, there, waits⟩ :=
      (sound.hall.lines key id).mp listed
    obtain rfl : future.key = key := keyed
    simp only [there, expectSome]
    refine ⟨_, rfl, ?_⟩
    have joined : joins (log ++ [.granted future.key id]) = joins log := joins_append ..
    have granted := sound.hall.grant ⟨.granted, none⟩
      (fun other => gate.ledger other + if future.key = other then 1 else 0) found has there waits
      rfl fun _ => rfl
    refine ⟨?_, by rw [joined]; exact sound.next, sound.admitted, fun other => ?_,
      Nat.le_trans (Nat.sub_le ..) sound.within, forall_insert ?_ sound.perKey,
      sound.fair.snoc ?_⟩
    · rw [ledger_insert atKey _ _ rfl]
      refine granted.rebook (fun _ => rfl) (Nat.le_refl _) fun other => ?_
      rw [count_cons]
      simp only [beq_iff_eq]
      omega
    · rw [line_snoc, Event.advance, queueOf, get_insert, ← sound.queues other]
      split
      · next same =>
        subst same
        rw [sound.queues, queue]
        simp [Option.elim]
      · rfl
    · have := sound.perKey _ _ atKey
      simp only [length_cons] at this ⊢
      omega
    · change (line _ _).head? = _
      rw [queue]
      rfl

omit [LawfulEqOrd K] [TransOrd K] [DecidableEq K] [Ord K] in
/-- `close` turns the listed waiters, and no others. -/
theorem get_closeWaiters (ids : List UInt64) (waiters : BTreeMap UInt64 Waiter) (id : UInt64) :
    (ids.foldl closeWaiter waiters)[id]? =
      if id ∈ ids then waiters[id]?.map fun _ => ⟨.closed, none⟩ else waiters[id]? := by
  refine get_foldl_turn (fun _ => ⟨.closed, none⟩) (fun m k a => ?_) (fun _ => rfl) ids waiters id
  rw [closeWaiter]
  by_cases same : a = k
  · subst same
    cases found : m[a]? with
    | none => simp [found]
    | some waiter => simp
  · cases m[k]? with
    | none => simp [same]
    | some waiter => simp [get_insert, same, Ne.symm same]

/-- All lines are dispersed, and the holders stay. -/
theorem closed (sound : Sound limits held gate futures log) :
    Sound limits held (close gate).2 futures (log ++ [.dispersed]) := by
  have entries : ∀ key : K, (close gate).2.entries[key]? =
      gate.entries[key]?.map fun _ => (⟨[]⟩ : QueueEntry) := fun key => ExtTreeMap.getElem?_map
  have ledger : (close gate).2.ledger = gate.ledger := by
    funext key
    rw [ledger, ledger, entries, Option.isSome_map]
  have joined : joins (log ++ [.dispersed]) = joins log := joins_append ..
  refine ⟨?_, by rw [joined]; exact sound.next, sound.admitted, fun key => ?_, Nat.zero_le _, ?_,
    sound.fair.snoc trivial⟩
  · rw [ledger]
    refine sound.hall.disperse (fun id => ?_) (fun _ => rfl) (get_closeWaiters _ gate.waiters)
    rw [mem_flatMap]
    constructor
    · rintro ⟨⟨key, entry⟩, member, here⟩
      refine ⟨key, ?_⟩
      rw [← sound.queues, queueOf, (mem_toList_iff ..).mp member]
      exact here
    · rintro ⟨key, here⟩
      obtain ⟨entry, found, queue⟩ := sound.entry_of_line here
      exact ⟨(key, entry), (mem_toList_iff ..).mpr found, queue ▸ here⟩
  · rw [line_snoc, Event.advance, queueOf, entries]
    cases gate.entries[key]? <;> rfl
  · intro key entry found
    rw [entries] at found
    obtain ⟨_, -, rfl⟩ := Option.map_eq_some_iff.mp found
    exact limits.perKey_positive

end Sound

end QueueGate
