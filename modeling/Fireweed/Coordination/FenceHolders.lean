import Fireweed.Coordination
import Fireweed.WaitingLines.Holders

/-!
# Holders of a selection fence

An entry of the fence counts its shared holders and says whether it has an exclusive
one. The fence agrees with the permits and futures outside of it if they form a hall
with that ledger, the queues are the lines of the log, and no entry has holders of
both modes. Every change that the fence makes keeps this agreement. A claim that is
being released is in nobody's hand; it still counts among those held outside.
-/

namespace SelectionFence

open BTree Checked List Std WaitingLines
open ByteAdmission (Waker expectSome)

variable {K : Type} [Ord K] [TransOrd K] [DecidableEq K]

/-- How the lines read futures and waiters. A claim is what a permit would carry. -/
def view : View K (SelectionFencePermit K) (SelectionFenceAcquire K) FenceWaiter where
  key := SelectionFenceAcquire.key
  claim future := ⟨future.key, future.mode⟩
  ticket := SelectionFenceAcquire.waiterId
  active future := !future.completed
  spent := SelectionFenceAcquire.acquired
  status := FenceWaiter.status

def FenceEntry.holders (entry : FenceEntry) : SelectionFenceMode → Nat
  | .shared => entry.readers
  | .exclusive => if entry.writer then 1 else 0

namespace SelectionFenceState

def queueOf (state : SelectionFenceState K) (key : K) : List UInt64 :=
  (state.entries[key]?).elim [] FenceEntry.waiters

def ledger (state : SelectionFenceState K) (claim : SelectionFencePermit K) : Nat :=
  (state.entries[claim.key]?).elim 0 fun entry => entry.holders claim.mode

end SelectionFenceState

/-- A future and its waiter fit together. -/
structure Steady (waiter : Option FenceWaiter) (future : SelectionFenceAcquire K) : Prop where
  admitted : future.acquired = true → future.completed = true
  settling : ∀ status, future.settling = some status → future.completed = false ∧
    status ≠ .waiting ∧ ∃ w, waiter = some w ∧ w.status = status
  mode : ∀ w, waiter = some w → w.mode = future.mode

/-- The fence agrees with the claims held and the futures outside of it. -/
structure Sound (held : List (SelectionFencePermit K)) (fence : SelectionFenceState K)
    (futures : BTreeMap Nat (SelectionFenceAcquire K)) (log : List (Event K)) : Prop where
  hall : ∃ queued, Hall view futures fence.waiters log held fence.ledger queued
  next : fence.nextWaiterId = UInt64.ofNat (joins log)
  steady : ∀ (name : Nat) (future : SelectionFenceAcquire K), futures[name]? = some future →
    Steady (view.slot fence.waiters future) future
  queues : ∀ key, fence.queueOf key = line key log
  exclusion : ∀ (key : K) entry, fence.entries[key]? = some entry → entry.writer = true →
    entry.readers = 0
  fair : Fair log

open SelectionFenceState FenceEntry View

theorem sound_initial : Sound [] (new : SelectionFenceState K) ∅ [] where
  hall := by
    have ledger : (new : SelectionFenceState K).ledger = fun _ => 0 := by
      funext claim
      simp [ledger, new]
    rw [ledger]
    exact ⟨0, .empty⟩
  next := rfl
  steady name future found := by simp at found
  queues key := by simp [queueOf, new, line]
  exclusion key entry found := by simp [new] at found
  fair := fair_nil

namespace Sound

variable {held held' : List (SelectionFencePermit K)} {fence : SelectionFenceState K}
  {futures futures' : BTreeMap Nat (SelectionFenceAcquire K)} {log : List (Event K)} {name : Nat}
  {future : SelectionFenceAcquire K} {id : UInt64} {waiter : FenceWaiter} {key : K}

variable {entry : FenceEntry} {mode : SelectionFenceMode} {rest : List UInt64}

section

variable (sound : Sound held fence futures log)

include sound

theorem room : Room view futures fence.waiters log := by
  obtain ⟨queued, hall⟩ := sound.hall
  exact hall.toRoom

theorem books (claim : SelectionFencePermit K) :
    held.count claim + view.count futures fence.waiters (view.granted claim) =
      fence.ledger claim := by
  obtain ⟨queued, hall⟩ := sound.hall
  exact hall.books claim

/-- The order in which claims are held outside does not matter. -/
theorem perm (same : held.Perm held') : Sound held' fence futures log := by
  obtain ⟨queued, hall⟩ := sound.hall
  refine { sound with hall := ⟨queued, hall.rebook (fun _ => rfl) (Nat.le_refl _) fun claim => ?_⟩ }
  rw [same.count_eq]

variable {waiters : BTreeMap UInt64 FenceWaiter}

/-- Futures and waiters change; the entries and the lines stay. -/
theorem settle {queued : Nat} (hall : Hall view futures' waiters log held' fence.ledger queued)
    (steady : ∀ (name : Nat) (future : SelectionFenceAcquire K), futures'[name]? = some future →
      Steady (view.slot waiters future) future) :
    Sound held' { fence with waiters := waiters } futures' log :=
  { sound with hall := ⟨queued, hall⟩, steady := steady }

theorem steady_change (name : Nat) (others : ∀ b ≠ name, futures'[b]? = futures[b]?)
    (apart : ∀ b ≠ name, ∀ f, futures[b]? = some f →
      view.slot waiters f = view.slot fence.waiters f)
    (own : ∀ g, futures'[name]? = some g → Steady (view.slot waiters g) g) (b : Nat)
    (f : SelectionFenceAcquire K) (found : futures'[b]? = some f) :
    Steady (view.slot waiters f) f := by
  by_cases same : b = name
  · subst same
    exact own f found
  · rw [others b same] at found
    rw [apart b same f found]
    exact sound.steady b f found

/-- A future without a waiter comes or changes its flags. -/
theorem unregistered (before : ∀ f, futures[name]? = some f → view.slot fence.waiters f = none)
    (none_ : future.waiterId = none) (steady : Steady none future) :
    Sound held fence (futures.insert name future) log := by
  obtain ⟨queued, hall⟩ := sound.hall
  have others := get_insert_others futures name future
  refine sound.settle (hall.unslotted name others before (of_get_insert none_))
    (sound.steady_change name others (fun _ _ _ _ => rfl) (of_get_insert ?_))
  rw [slot_of_none none_]
  exact steady

/-- A future without a waiter goes. -/
theorem dropped_unregistered (found : futures[name]? = some future)
    (absent : view.slot fence.waiters future = none) :
    Sound held fence (futures.erase name) log := by
  obtain ⟨queued, hall⟩ := sound.hall
  have others := get_erase_others futures name
  exact sound.settle (hall.unslotted name others (of_get found absent) of_get_erase)
    (sound.steady_change name others (fun _ _ _ _ => rfl) of_get_erase)

/-- A future that keeps its waiter changes its flags, and the waiter its waker. -/
theorem touched (found : futures[name]? = some future) (has : future.waiterId = some id)
    (there : fence.waiters[id]? = some waiter) (g : SelectionFenceAcquire K) (waker : Option Waker)
    (sameKey : g.key = future.key) (sameMode : g.mode = future.mode)
    (sameTicket : g.waiterId = some id) (unspent : g.acquired = false)
    (steady : Steady (some { waiter with waker := waker }) g) :
    Sound held { fence with
      waiters := fence.waiters.insert id { waiter with waker := waker } }
      (futures.insert name g) log := by
  obtain ⟨queued, hall⟩ := sound.hall
  have claim : view.claim g = view.claim future := by simp [view, sameKey, sameMode]
  refine sound.settle (hall.touch g { waiter with waker := waker } found has there sameKey claim
    sameTicket rfl unspent) (sound.steady_change name
    (get_insert_others _ _ _)
    (hall.toRoom.slot_apart found has (get_insert_others _ _ _))
    (of_get_insert ?_))
  rw [slot_of_ticket sameTicket, get_insert_self]
  exact steady

/-- The waiter of a future that had its turn is removed. A granted claim passes to the permit, or
to whoever drops the future. -/
theorem vacated (found : futures[name]? = some future) (has : future.waiterId = some id)
    (there : fence.waiters[id]? = some waiter) (turn : waiter.status ≠ .waiting)
    (others : ∀ b ≠ name, futures'[b]? = futures[b]?)
    (after : ∀ g, futures'[name]? = some g → g.key = future.key ∧ g.waiterId = some id ∧
      g.completed = true ∧ g.settling = none) :
    Sound (if waiter.status = .granted then ⟨future.key, future.mode⟩ :: held else held)
      { fence with waiters := fence.waiters.erase id } futures' log := by
  obtain ⟨queued, hall⟩ := sound.hall
  refine sound.settle (hall.vacate found has there turn others fun g atName => ?_)
    (sound.steady_change name others
      (hall.toRoom.slot_apart found has (get_erase_others _ _))
      fun g atName => ?_)
  · obtain ⟨keyed, ticketed, finished, -⟩ := after g atName
    exact ⟨keyed, ticketed, by simp [view, finished]⟩
  · obtain ⟨-, ticketed, finished, settled⟩ := after g atName
    rw [slot_of_ticket ticketed, get_erase_self]
    exact ⟨fun _ => finished, fun status settling => (by rw [settled] at settling; cases settling),
      fun w none_ => by cases none_⟩

theorem entry_of_line (waits : id ∈ line key log) :
    ∃ entry, fence.entries[key]? = some entry ∧ entry.waiters = line key log := by
  have queue := sound.queues key
  rw [queueOf] at queue
  cases found : fence.entries[key]? with
  | none =>
    rw [found] at queue
    rw [← queue] at waits
    cases waits
  | some entry =>
    rw [found] at queue
    exact ⟨entry, rfl, queue⟩

theorem line_of_entry (atKey : fence.entries[key]? = some entry) :
    line key log = entry.waiters := by
  rw [← sound.queues, queueOf, atKey]
  rfl

theorem waiter_of_line (waits : id ∈ line key log) :
    ∃ (name : Nat) (future : SelectionFenceAcquire K) (waiter : FenceWaiter),
      futures[name]? = some future ∧ future.key = key ∧ future.waiterId = some id ∧
        fence.waiters[id]? = some waiter ∧ waiter.status = .waiting ∧ waiter.mode =
          future.mode := by
  obtain ⟨name, future, waiter, found, keyed, has, there, waiting⟩ :=
    (sound.room.lines key id).mp waits
  have mode := (sound.steady name future found).mode waiter
    (by rw [slot_of_ticket has, there])
  exact ⟨name, future, waiter, found, keyed, has, there, waiting, mode⟩

end

variable [LawfulEqOrd K]

omit [DecidableEq K] in
theorem ledger_insert [DecidableEq K] (fence after : SelectionFenceState K) {key : K}
    (entries : after.entries = fence.entries.insert key entry) (claim : SelectionFencePermit K) :
    after.ledger claim = if key = claim.key then entry.holders claim.mode
      else fence.ledger claim := by
  rw [ledger, entries, get_insert]
  split
  · rfl
  · rfl

/-- The ledger reads the holders of an entry only. -/
theorem ledger_of_holders {entry' : FenceEntry} (atKey : fence.entries[key]? = some entry)
    (same : ∀ mode, entry'.holders mode = entry.holders mode) (after : SelectionFenceState K)
    (entries : after.entries = fence.entries.insert key entry') : after.ledger = fence.ledger := by
  funext claim
  rw [ledger_insert fence after entries]
  split
  · next here =>
    rw [ledger, ← here, atKey, same]
    rfl
  · rfl

/-- One entry changes together with its line; the others stay. -/
theorem queues_insert (sound : Sound held fence futures log) {after : SelectionFenceState K}
    {log' : List (Event K)} (entries : after.entries = fence.entries.insert key entry)
    (own : line key log' = entry.waiters)
    (others : ∀ other, key ≠ other → line other log' = line other log) (other : K) :
    after.queueOf other = line other log' := by
  rw [queueOf, entries, get_insert]
  split
  · next same =>
    subst same
    exact own.symm
  · next different =>
    rw [others other different]
    exact sound.queues other

omit [Ord K] [TransOrd K] [DecidableEq K] [LawfulEqOrd K] in
theorem holders_hold (entry : FenceEntry) (mode other : SelectionFenceMode)
    (free : mode = .exclusive → entry.writer = false) :
    (entry.hold mode).holders other = entry.holders other + if mode = other then 1 else 0 := by
  cases mode with
  | shared => cases other <;> rfl
  | exclusive => cases other <;> simp [hold, holders, free rfl]

/-- A caller without conflicts passes. -/
theorem entered (sound : Sound held fence futures log)
    (available : immediatelyAvailable fence.entries[key]? mode = true) :
    Sound (⟨key, mode⟩ :: held)
      { fence with
        entries := fence.entries.insert key
          ((fence.entries[key]?.getD ⟨0, false, []⟩).hold mode) }
      futures (log ++ [.entered key]) := by
  obtain ⟨queued, hall⟩ := sound.hall
  let entry := fence.entries[key]?.getD ⟨0, false, []⟩
  have free : entry.writer = false ∧ entry.waiters = [] ∧ (mode = .shared ∨ entry.readers = 0) := by
    rw [immediatelyAvailable] at available
    cases found : fence.entries[key]? with
    | none => simp [entry, found]
    | some e =>
      rw [found] at available
      simpa [entry, found, and_assoc] using available
  have idle : line key log = [] := by
    rw [← sound.queues, queueOf, ← free.2.1]
    cases found : fence.entries[key]? <;> simp [entry, found]
  have known : ∀ m, fence.ledger ⟨key, m⟩ = entry.holders m := by
    intro m
    rw [ledger]
    cases found : fence.entries[key]? with
    | none => cases m <;> simp [entry, found, holders]
    | some e => simp [entry, found]
  have lines : ∀ other, line other (log ++ [.entered key]) = line other log :=
    fun other => line_snoc ..
  have joined : joins (log ++ [.entered key]) = joins log := joins_append ..
  have waiters : (entry.hold mode).waiters = entry.waiters := by cases mode <;> rfl
  refine ⟨⟨queued, hall.rebook lines joined.ge fun claim => ?_⟩, by rw [joined]; exact sound.next,
    sound.steady, sound.queues_insert rfl ?_ fun other _ => lines other,
    forall_insert ?_ sound.exclusion, sound.fair.snoc idle⟩
  · rw [ledger_insert fence { fence with
        entries := fence.entries.insert key (entry.hold mode) } rfl, count_cons]
    obtain ⟨k, m⟩ := claim
    by_cases same : key = k
    · subst same
      rw [if_pos rfl, known, holders_hold entry mode m fun _ => free.1]
      simp only [beq_iff_eq, SelectionFencePermit.mk.injEq, true_and]
      omega
    · rw [if_neg same]
      simp [same]
  · rw [lines, idle, waiters, free.2.1]
  · cases mode with
    | shared =>
      intro writer
      rw [show (entry.hold .shared).writer = entry.writer from rfl, free.1] at writer
      cases writer
    | exclusive =>
      intro _
      rcases free.2.2 with impossible | none_
      · cases impossible
      · exact none_

theorem registered (sound : Sound held fence futures log) (few : joins log < 2 ^ 64)
    (found : futures[name]? = some future) (unregistered : future.waiterId = none)
    (unfinished : future.completed = false) (unsettled : future.settling = none)
    (atKey : fence.entries[future.key]? = some entry) (waker : Option Waker) (now : Nat) :
    Sound held
      { fence with
        nextWaiterId := fence.nextWaiterId + 1
        waiters := fence.waiters.insert fence.nextWaiterId ⟨future.mode, .waiting, waker⟩
        entries := fence.entries.insert future.key
          { entry with waiters := entry.waiters ++ [fence.nextWaiterId] } }
      (futures.insert name
        { future with waiterId := some fence.nextWaiterId, registeredAt := some now })
      (log ++ [.joined future.key fence.nextWaiterId]) := by
  obtain ⟨queued, hall⟩ := sound.hall
  have number := toNat_next sound.next few
  have joined : joins (log ++ [.joined future.key fence.nextWaiterId]) = joins log + 1 :=
    joins_append ..
  have open_ : future.acquired = false := by
    cases acquired : future.acquired with
    | false => rfl
    | true =>
      have finished := (sound.steady name future found).admitted acquired
      rw [unfinished] at finished
      cases finished
  let waiting : SelectionFenceAcquire K :=
    { future with waiterId := some fence.nextWaiterId, registeredAt := some now }
  let waiter : FenceWaiter := ⟨future.mode, .waiting, waker⟩
  have joins_ := hall.join waiting waiter found unregistered rfl number rfl open_
  obtain ⟨unused, -⟩ := hall.toRoom.fresh number
  refine ⟨⟨queued + 1, ?_⟩, ?_,
    sound.steady_change name (get_insert_others _ _ _) ?_ ?_,
    sound.queues_insert rfl ?_ ?_, forall_insert ?_ sound.exclusion, sound.fair.snoc trivial⟩
  · rw [ledger_of_holders atKey (fun _ => by rfl) _ rfl]
    exact joins_
  · rw [joined, sound.next]
    exact (UInt64.ofNat_add ..).symm
  · intro b _ f atB
    cases has : f.waiterId with
    | none => rw [slot_of_none has, slot_of_none has]
    | some other =>
      rw [slot_of_ticket has, slot_of_ticket has, get_insert_ne]
      rintro rfl
      exact unused b f atB has
  · refine of_get_insert ?_
    rw [slot_of_ticket rfl, get_insert_self]
    refine ⟨fun acquired => ?_, fun status settling => ?_, fun w here => by cases here; rfl⟩
    · rw [open_] at acquired
      cases acquired
    · rw [unsettled] at settling
      cases settling
  · rw [line_snoc, Event.advance, if_pos rfl, sound.line_of_entry atKey]
  · intro other different
    rw [line_snoc, Event.advance, if_neg different]
  · exact sound.exclusion future.key entry atKey

/-- A waiting future leaves its line. -/
theorem cancelled (sound : Sound held fence futures log) (found : futures[name]? = some future)
    (has : future.waiterId = some id) (there : fence.waiters[id]? = some waiter)
    (waits : waiter.status = .waiting) :
    ∃ entry, fence.entries[future.key]? = some entry ∧
      cancelWaiting { fence with waiters := fence.waiters.erase id } future.key id =
        ([.left future.key id], { fence with
          waiters := fence.waiters.erase id
          entries := fence.entries.insert future.key
            { entry with waiters := entry.waiters.erase id } }) ∧
      Sound held
        { fence with
          waiters := fence.waiters.erase id
          entries := fence.entries.insert future.key
            { entry with waiters := entry.waiters.erase id } }
        (futures.erase name) (log ++ [.left future.key id]) := by
  obtain ⟨queued, hall⟩ := sound.hall
  have listed : id ∈ line future.key log :=
    (sound.room.mem_line_iff found has).mpr ⟨rfl, waiter, there, waits⟩
  obtain ⟨entry, atKey, queue⟩ := sound.entry_of_line listed
  have joined : joins (log ++ [.left future.key id]) = joins log := joins_append ..
  have gone := get_erase_self_ne futures name
  refine ⟨entry, atKey, ?_, ⟨⟨queued - 1, ?_⟩, by rw [joined]; exact sound.next,
    sound.steady_change name (get_erase_others _ _)
      (hall.toRoom.slot_apart found has (get_erase_others _ _))
      fun g atName => absurd atName (gone g),
    sound.queues_insert rfl ?_ ?_, forall_insert ?_ sound.exclusion, sound.fair.snoc trivial⟩⟩
  · simp only [cancelWaiting, atKey]
    rw [if_pos (queue ▸ listed)]
  · rw [ledger_of_holders atKey (fun _ => by rfl) _ rfl]
    exact hall.leave found has there waits
  · rw [line_snoc, Event.advance, if_pos rfl, sound.line_of_entry atKey]
  · intro other different
    rw [line_snoc, Event.advance, if_neg different]
  · exact sound.exclusion future.key entry atKey

/-- A claim held outside is given back to the entry of its key. -/
theorem released (sound : Sound (⟨key, mode⟩ :: held) fence futures log) :
    ∃ entry, fence.entries[key]? = some entry ∧
      Sound held { fence with entries := fence.entries.insert key (entry.release mode) } futures
        log := by
  obtain ⟨queued, hall⟩ := sound.hall
  have counted := sound.books ⟨key, mode⟩
  rw [count_cons_self, ledger] at counted
  cases atKey : fence.entries[key]? with
  | none =>
    rw [atKey, Option.elim_none] at counted
    omega
  | some entry =>
    rw [atKey, Option.elim_some] at counted
    have dropped : ∀ m, (entry.release mode).holders m + (if mode = m then 1 else 0) =
        entry.holders m := by
      intro m
      cases mode with
      | shared =>
        cases m with
        | shared =>
          simp only [holders, release, if_true] at counted ⊢
          omega
        | exclusive => rfl
      | exclusive =>
        cases m with
        | shared => simp [holders, release]
        | exclusive =>
          simp only [holders, release] at counted ⊢
          split at counted
          · simp_all
          · omega
    have waiters : (entry.release mode).waiters = entry.waiters := by cases mode <;> rfl
    refine ⟨entry, rfl, ⟨queued, hall.rebook (fun _ => rfl) (Nat.le_refl _) fun claim => ?_⟩,
      sound.next, sound.steady, sound.queues_insert rfl ?_ fun _ _ => rfl,
      forall_insert ?_ sound.exclusion, sound.fair⟩
    · rw [ledger_insert fence { fence with
          entries := fence.entries.insert key (entry.release mode) } rfl, count_cons]
      obtain ⟨k, m⟩ := claim
      have moved := dropped m
      by_cases same : key = k
      · subst same
        rw [if_pos rfl, ledger, atKey, Option.elim_some]
        simp only [beq_iff_eq, SelectionFencePermit.mk.injEq, true_and]
        omega
      · rw [if_neg same]
        simp [same]
    · rw [waiters, sound.line_of_entry atKey]
    · have before := sound.exclusion key entry atKey
      cases mode with
      | shared =>
        intro writer
        have := before writer
        change entry.readers - 1 = 0
        omega
      | exclusive =>
        intro writer
        cases writer

/-- An entry without holders and waiters is removed. -/
theorem erased (sound : Sound held fence futures log) (atKey : fence.entries[key]? = some entry)
    (free : entry.isHeld = false) (idle : entry.waiters = []) :
    Sound held { fence with entries := fence.entries.erase key } futures log := by
  obtain ⟨queued, hall⟩ := sound.hall
  rw [isHeld, Bool.or_eq_false_iff, decide_eq_false_iff_not] at free
  refine ⟨⟨queued, hall.rebook (fun _ => rfl) (Nat.le_refl _) fun claim => ?_⟩, sound.next,
    sound.steady, fun other => ?_, fun other e found => ?_, sound.fair⟩
  · rw [ledger, ledger, get_erase]
    by_cases same : key = claim.key
    · rw [if_pos same, ← same, atKey]
      cases claim.mode with
      | shared =>
        simp only [Option.elim_none, Option.elim_some, holders]
        omega
      | exclusive => simp [holders, free.1]
    · rw [if_neg same]
  · rw [queueOf, get_erase]
    split
    · next same =>
      rw [← same, sound.line_of_entry atKey, idle]
      rfl
    · exact sound.queues other
  · exact forall_erase sound.exclusion other e found

/-- The first waiter of a key without conflicting holders gets it. -/
theorem granted_one (sound : Sound held fence futures log)
    (atKey : fence.entries[key]? = some entry) (front : entry.waiters = id :: rest)
    (there : fence.waiters[id]? = some waiter) (unheld : entry.writer = false)
    (alone : waiter.mode = .exclusive → entry.readers = 0) :
    Sound held
      { fence with
        entries := fence.entries.insert key ({ entry with waiters := rest }.hold waiter.mode)
        waiters := fence.waiters.insert id { waiter with status := .granted, waker := none } }
      futures (log ++ [.granted key id]) := by
  obtain ⟨queued, hall⟩ := sound.hall
  have queue : line key log = id :: rest := by rw [sound.line_of_entry atKey, front]
  obtain ⟨name, future, w, found, keyed, has, there', waits, mode⟩ :=
    sound.waiter_of_line (by rw [queue]; exact mem_cons_self : id ∈ line key log)
  rw [there] at there'
  cases there'
  subst keyed
  have joined : joins (log ++ [.granted future.key id]) = joins log := joins_append ..
  have slot : view.slot fence.waiters future = some waiter := by
    rw [slot_of_ticket has, there]
  have waiters : ({ entry with waiters := rest }.hold waiter.mode).waiters = rest := by
    cases waiter.mode <;> rfl
  refine ⟨⟨queued - 1, hall.grant _ _ found has there waits rfl fun claim => ?_⟩,
    by rw [joined]; exact sound.next, sound.steady_change name (fun _ _ => rfl)
      (hall.toRoom.slot_apart found has fun other different =>
        get_insert_ne _ _ (Ne.symm different)) fun g atName => ?_,
    sound.queues_insert rfl ?_ ?_, forall_insert ?_ sound.exclusion, sound.fair.snoc ?_⟩
  · refine (ledger_insert fence _ rfl claim).trans ?_
    obtain ⟨k, m⟩ := claim
    by_cases same : future.key = k
    · subst same
      rw [if_pos rfl, holders_hold { entry with waiters := rest } _ _ fun _ => unheld,
        ledger, atKey, mode]
      simp only [view, SelectionFencePermit.mk.injEq, true_and]
      cases m <;> rfl
    · rw [if_neg same]
      simp [view, same]
  · rw [found] at atName
    cases atName
    have before := sound.steady name future found
    rw [slot] at before
    rw [slot_of_ticket has, get_insert_self]
    refine ⟨before.admitted, fun status settling => ?_, fun w here => ?_⟩
    · obtain ⟨-, turned, w, same, rfl⟩ := before.settling status settling
      cases same
      exact absurd waits turned
    · cases here
      exact mode
  · rw [line_snoc, Event.advance, if_pos rfl, queue, waiters, erase_cons_head]
  · intro other different
    rw [line_snoc, Event.advance, if_neg different]
  · cases exclusive : waiter.mode with
    | shared =>
      intro writer
      have : entry.writer = true := writer
      rw [unheld] at this
      cases this
    | exclusive => exact fun _ => alone exclusive
  · change (line _ _).head? = _
    rw [queue]
    rfl

omit [DecidableEq K] in
theorem insert_insert [DecidableEq K] (entries : BTreeMap K FenceEntry) (key : K)
    (a b : FenceEntry) : (entries.insert key a).insert key b = entries.insert key b := by
  refine ExtTreeMap.ext_getElem? fun other => ?_
  rw [get_insert, get_insert, get_insert]
  split <;> rfl

/-- Shared waiters at the front of a line get the key together. -/
theorem granted_shared (ids : List UInt64) (sound : Sound held fence futures log)
    (atKey : fence.entries[key]? = some entry) (front : entry.waiters = ids ++ rest)
    (unheld : entry.writer = false)
    (shared : ∀ id ∈ ids, ∃ w, fence.waiters[id]? = some w ∧ w.mode = .shared) :
    ∃ wakers waiters, grantWaiters ids fence.waiters = .ok (wakers, waiters) ∧
      Sound held
        { fence with
          entries := fence.entries.insert key
            { entry with waiters := rest, readers := entry.readers + ids.length }
          waiters := waiters }
        futures (log ++ ids.map (.granted key)) := by
  induction ids generalizing fence log entry with
  | nil =>
    refine ⟨[], fence.waiters, rfl, ?_⟩
    have same : { entry with waiters := rest, readers := entry.readers + 0 } = entry := by
      cases entry
      cases front
      rfl
    rw [map_nil, append_nil, length_nil, same, insert_same _ atKey]
    exact sound
  | cons id ids ih =>
    obtain ⟨waiter, there, mode⟩ := shared id mem_cons_self
    have one := sound.granted_one atKey front there unheld fun exclusive => by
      rw [mode] at exclusive
      cases exclusive
    have next : { entry with waiters := ids ++ rest }.hold waiter.mode =
        { entry with waiters := ids ++ rest, readers := entry.readers + 1 } := by
      rw [mode]
      rfl
    rw [append_eq, next] at one
    have remaining : ∀ other ∈ ids, ∃ w,
        (fence.waiters.insert id { waiter with status := .granted, waker := none })[other]? =
          some w ∧ w.mode = .shared := by
      intro other member
      obtain ⟨w, atOther, sharedW⟩ := shared other (mem_cons_of_mem _ member)
      rw [get_insert]
      split
      · exact ⟨_, rfl, mode⟩
      · exact ⟨w, atOther, sharedW⟩
    obtain ⟨wakers, waiters, granted, kept⟩ :=
      ih one (get_insert_self ..) rfl unheld remaining
    simp only [grantWaiters, there, expectSome]
    refine ⟨waiter.waker.toList ++ wakers, waiters, ?_, ?_⟩
    · change (grantWaiters ids _ >>= _) = _
      rw [granted]
      rfl
    · rw [insert_insert] at kept
      simpa [Nat.add_assoc, Nat.add_comm 1] using kept

omit [LawfulEqOrd K] [TransOrd K] [DecidableEq K] [Ord K] in
/-- `close` turns the listed waiters, and no others. -/
theorem get_closeWaiters (ids : List UInt64) (waiters : BTreeMap UInt64 FenceWaiter) (id : UInt64) :
    (ids.foldl closeWaiter waiters)[id]? =
      if id ∈ ids then waiters[id]?.map fun w => { w with status := .closed, waker := none }
      else waiters[id]? := by
  refine get_foldl_turn (fun w => { w with status := .closed, waker := none }) (fun m k a => ?_)
    (fun _ => rfl) ids waiters id
  rw [closeWaiter]
  by_cases same : a = k
  · subst same
    cases found : m[a]? with
    | none => simp [found]
    | some waiter => simp
  · cases m[k]? with
    | none => simp [same]
    | some waiter => simp [get_insert, same, Ne.symm same]

/-- All lines are dispersed, and the holders stay. -/
theorem closed (sound : Sound held fence futures log)
    (allHeld : ∀ (key : K) entry, fence.entries[key]? = some entry → entry.isHeld = true) :
    Sound held (close fence).2 futures (log ++ [.dispersed]) := by
  obtain ⟨queued, hall⟩ := sound.hall
  have entries : ∀ key : K, (close fence).2.entries[key]? =
      fence.entries[key]?.map fun entry => { entry with waiters := [] } := by
    intro key
    change (ExtTreeMap.filter _ (ExtTreeMap.map _ fence.entries))[key]? = _
    rw [ExtTreeMap.getElem?_filter', ExtTreeMap.getElem?_map]
    cases found : fence.entries[key]? with
    | none => rfl
    | some entry =>
      have held := allHeld key entry found
      simpa [isHeld] using held
  have ledger : (close fence).2.ledger = fence.ledger := by
    funext claim
    rw [ledger, ledger, entries]
    cases fence.entries[claim.key]? with
    | none => rfl
    | some entry => cases claim.mode <;> rfl
  have joined : joins (log ++ [.dispersed]) = joins log := joins_append ..
  let ids := fence.entries.toList.flatMap fun entry => entry.2.waiters
  have listed : ∀ id, id ∈ ids ↔ ∃ key, id ∈ line key log := by
    intro id
    rw [mem_flatMap]
    constructor
    · rintro ⟨⟨key, entry⟩, member, here⟩
      refine ⟨key, ?_⟩
      rw [sound.line_of_entry ((mem_toList_iff ..).mp member)]
      exact here
    · rintro ⟨key, here⟩
      obtain ⟨entry, found, queue⟩ := sound.entry_of_line here
      exact ⟨(key, entry), (mem_toList_iff ..).mpr found, queue ▸ here⟩
  have after : ∀ id, (close fence).2.waiters[id]? = _ := get_closeWaiters ids fence.waiters
  refine ⟨⟨0, ?_⟩, by rw [joined]; exact sound.next, fun name future found => ?_, fun key => ?_,
    fun key entry found => ?_, sound.fair.snoc trivial⟩
  · rw [ledger]
    exact hall.disperse listed (fun _ => rfl) after
  · have before := sound.steady name future found
    cases has : future.waiterId with
    | none =>
      rw [slot_of_none has] at before ⊢
      exact before
    | some id =>
      rw [slot_of_ticket has] at before ⊢
      rw [after]
      split
      · next here =>
        -- A listed waiter waits, so no poll of its future is between its sections.
        obtain ⟨key, waits⟩ := (listed id).mp here
        obtain ⟨-, w, there, waiting⟩ := (sound.room.mem_line_iff found has).mp waits
        rw [there] at before ⊢
        refine ⟨before.admitted, fun status settling => ?_, fun w' same => ?_⟩
        · obtain ⟨-, turned, w', same, rfl⟩ := before.settling status settling
          cases same
          exact absurd waiting turned
        · cases same
          exact before.mode w rfl
      · exact before
  · rw [line_snoc, Event.advance, queueOf, entries]
    cases fence.entries[key]? <;> rfl
  · rw [entries] at found
    obtain ⟨old, there, rfl⟩ := Option.map_eq_some_iff.mp found
    exact sound.exclusion key old there

end Sound

end SelectionFence
