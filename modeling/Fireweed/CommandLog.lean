import Fireweed.ControlPlane
import Fireweed.Projection.Items
import Fireweed.Runs

/-!
# Paging through the in-memory command log

The log of a shard keeps its commands in order; a position is the epoch of the
append and a sequence number counted from a base that a reopen may shift.
Readers page through the log: the starting position is exclusive, and the cursor
of a page is the position of the first entry that was not returned.
-/

namespace CommandLog

open Projection (CommandPosition)
open Engine (EngineResult)
open List Runs

def saturatingAdd (a b : UInt64) : UInt64 := if a.toNat + b.toNat < 2 ^ 64 then a + b else -1

def saturatingSub (a b : UInt64) : UInt64 := if b ≤ a then a - b else 0

variable {Command : Type}

structure LogData (Command : Type) where
  epoch : UInt64
  entries : List (UInt64 × Command)
  highWater : Option CommandPosition
  entryBaseSeq : UInt64

structure CommandPage (Command : Type) where
  entries : List (CommandPosition × Command)
  next : Option CommandPosition

namespace LogData

def new : LogData Command := ⟨0, [], none, 0⟩

/-- The sequence number of an index of the buffer. -/
def sequence (self : LogData Command) (i : Nat) : UInt64 :=
  saturatingAdd self.entryBaseSeq (UInt64.ofNat i)

/-- Append one command under the current epoch. -/
def push (self : LogData Command) (cmd : Command) : LogData Command × CommandPosition :=
  let pos : CommandPosition := ⟨self.epoch, self.sequence self.entries.length⟩
  ({ self with entries := self.entries ++ [(self.epoch, cmd)], highWater := some pos }, pos)

def pushAll : LogData Command → List Command → LogData Command × List CommandPosition
  | self, [] => (self, [])
  | self, cmd :: commands =>
    let pushed := self.push cmd
    let rest := pushed.1.pushAll commands
    (rest.1, pushed.2 :: rest.2)

def append (self : LogData Command) (commands : List Command) (expectedEpoch : UInt64) :
    EngineResult (LogData Command × List CommandPosition) :=
  if expectedEpoch ≠ self.epoch then .error .epochFenced else .ok (self.pushAll commands)

def advanceEpoch (self : LogData Command) : LogData Command := { self with epoch := self.epoch + 1 }

/-- The buffer index a read starts from; the position given is exclusive. -/
def start (self : LogData Command) : Option CommandPosition → Nat
  | some p => (saturatingSub (saturatingAdd p.sequence 1) self.entryBaseSeq).toNat
  | none => 0

def readFrom (self : LogData Command) (from_ : Option CommandPosition) (limit : Nat) :
    CommandPage Command :=
  let start := self.start from_
  let entries := ((self.entries.zipIdx.drop start).take limit).map fun entry =>
    ((⟨entry.1.1, self.sequence entry.2⟩ : CommandPosition), entry.1.2)
  let idx := start + entries.length
  let next := self.entries[idx]?.map fun entry =>
    (⟨entry.1, self.sequence idx⟩ : CommandPosition)
  ⟨entries, next⟩

/-- An empty buffer continues after the position and at its epoch at least. -/
def seeded (self : LogData Command) (position : CommandPosition) : LogData Command :=
  if self.entries.isEmpty then
    { self with
      entryBaseSeq := saturatingAdd position.sequence 1
      epoch := if self.epoch < position.backendEpoch then position.backendEpoch else self.epoch }
  else self

def setHighWater (self : LogData Command) (position : CommandPosition) :
    EngineResult (LogData Command) :=
  if self.highWater.any fun cur => !cur.precedes position && cur ≠ position then
    .error (.invalid "high-water regression")
  else .ok { self.seeded position with highWater := some position }

/-- Read pages, each from the cursor of the one before, until there is no cursor; the fuel bounds
the number of pages. -/
def readPages (self : LogData Command) (limit : Nat) :
    Nat → Option CommandPosition → Option (List (CommandPosition × Command))
  | 0, _ => none
  | fuel + 1, from_ =>
    let page := self.readFrom from_ limit
    match page.next with
    | none => some page.entries
    | some next => (self.readPages limit fuel (some next)).map (page.entries ++ ·)

/-- The entries with their positions. -/
def positions (self : LogData Command) : List (CommandPosition × Command) :=
  self.entries.zipIdx.map fun entry => (⟨entry.1.1, self.sequence entry.2⟩, entry.1.2)

variable (self : LogData Command)

theorem length_positions : self.positions.length = self.entries.length := by
  simp [positions]

/-! ## One page -/

theorem readFrom_entries (from_ : Option CommandPosition) (limit : Nat) :
    (self.readFrom from_ limit).entries =
      (self.positions.drop (self.start from_)).take limit := by
  rw [readFrom, positions, ← map_drop, ← map_take]

theorem readFrom_next (from_ : Option CommandPosition) (limit : Nat) :
    (self.readFrom from_ limit).next =
      ((self.positions.drop (self.start from_)).drop limit).head?.map Prod.fst := by
  have here (i : Nat) : self.positions[i]?.map Prod.fst =
      self.entries[i]?.map fun entry => (⟨entry.1, self.sequence i⟩ : CommandPosition) := by
    rw [positions, List.getElem?_map, List.getElem?_zipIdx]
    cases self.entries[i]? <;> simp
  have idx : (self.readFrom from_ limit).next = (self.positions[self.start from_ +
      (self.readFrom from_ limit).entries.length]?).map Prod.fst := (here _).symm
  rw [idx, readFrom_entries, drop_drop, head?_drop, List.length_take, length_drop]
  by_cases short : self.positions.length ≤ self.start from_ + limit
  · rw [getElem?_eq_none (by omega), getElem?_eq_none (by omega)]
  · rw [Nat.min_eq_left (by omega)]

end LogData

/-! ## Runs -/

/-- What is done to a log. -/
inductive Event (Command : Type) where
  | append (commands : List Command) (positions : List CommandPosition)
  | advance
  | seed (position : CommandPosition)

/-- The commands an event appends, each with the position returned for it. -/
def Event.returned : Event Command → List (CommandPosition × Command)
  | append commands positions => positions.zip commands
  | advance => []
  | seed _ => []

/-- Calls that succeed; the others leave the log as it is. -/
inductive Step : LogData Command → Event Command → LogData Command → Prop
  | append {log log' : LogData Command} {commands : List Command}
      {positions : List CommandPosition} {expectedEpoch : UInt64}
      (done : log.append commands expectedEpoch = .ok (log', positions)) :
      Step log (.append commands positions) log'
  | advance (log : LogData Command) : Step log .advance log.advanceEpoch
  | seed {log log' : LogData Command} {position : CommandPosition}
      (done : log.setHighWater position = .ok log') : Step log (.seed position) log'

theorem positions_push (log : LogData Command) (cmd : Command) :
    (log.push cmd).1.positions = log.positions ++ [((log.push cmd).2, cmd)] := by
  simp [LogData.push, LogData.positions, zipIdx_append, LogData.sequence]

open LogData

theorem positions_pushAll (log : LogData Command) (commands : List Command) :
    (log.pushAll commands).1.positions =
      log.positions ++ (log.pushAll commands).2.zip commands := by
  induction commands generalizing log with
  | nil => simp [pushAll]
  | cons cmd commands ih =>
    rw [pushAll, ih, positions_push]
    simp

theorem positions_seeded (log : LogData Command) (position : CommandPosition) :
    (log.seeded position).positions = log.positions := by
  by_cases none : log.entries.isEmpty = true
  · rw [seeded, if_pos none]
    simp [positions, isEmpty_iff.mp none]
  · rw [seeded, if_neg none]

variable {log : LogData Command} {α : Type}

theorem Step.positions {log' : LogData Command} {event : Event Command}
    (step : Step log event log') : log'.positions = log.positions ++ event.returned := by
  cases step with
  | append done =>
    rw [LogData.append] at done
    split_ifs at done
    obtain ⟨rfl, rfl⟩ := Prod.mk.inj (Except.ok.inj done)
    exact positions_pushAll log _
  | advance => exact (append_nil _).symm
  | seed done =>
    rw [LogData.setHighWater] at done
    split_ifs at done
    obtain rfl := Except.ok.inj done
    rw [Event.returned, append_nil]
    exact positions_seeded log _

/-- A log holds what was appended, at the positions returned. -/
theorem positions_of_run {events : List (Event Command)} (run : Run Step new events log) :
    log.positions = events.flatMap Event.returned := by
  refine run.history_invariant (P := fun past log => log.positions = past.flatMap Event.returned)
    rfl ?_
  intro past s event t holds step
  rw [step.positions, holds, flatMap_append, flatMap_singleton]

/-! ## Reading page after page -/

/-- What pages of a limit yield when the first entry after each page is passed over. -/
def pages {α : Type} (limit : Nat) (l : List α) : List α :=
  if l.length ≤ limit then l else l.take limit ++ pages limit (l.drop (limit + 1))
termination_by l.length
decreasing_by
  rw [List.length_drop]
  omega

theorem length_pages_le (limit : Nat) (l : List α) : (pages limit l).length ≤ l.length := by
  fun_induction pages limit l with
  | case1 l fits => exact le_refl _
  | case2 l long ih =>
    rw [length_append, List.length_take]
    rw [length_drop] at ih
    omega

/-- One entry is lost after every page but the last. -/
theorem pages_eq_self_iff (limit : Nat) (l : List α) : pages limit l = l ↔ l.length ≤ limit := by
  constructor
  · intro whole
    by_contra long
    have shorter := length_pages_le limit (l.drop (limit + 1))
    have lengths := congrArg length whole
    rw [pages, if_neg long, length_append, List.length_take] at lengths
    rw [length_drop] at shorter
    omega
  · intro fits
    rw [pages, if_pos fits]

/-- No sequence number is at the end of 64 bits. -/
def LogData.Unsaturated (log : LogData Command) : Prop :=
  log.entryBaseSeq.toNat + log.entries.length < 2 ^ 64

theorem toNat_saturatingAdd {a b : UInt64} (fits : a.toNat + b.toNat < 2 ^ 64) :
    (saturatingAdd a b).toNat = a.toNat + b.toNat := by
  rw [saturatingAdd, if_pos fits, UInt64.toNat_add]
  exact Nat.mod_eq_of_lt fits

theorem toNat_saturatingSub (a b : UInt64) : (saturatingSub a b).toNat = a.toNat - b.toNat := by
  rw [saturatingSub]
  split_ifs with le
  · exact UInt64.toNat_sub_of_le _ _ le
  · rw [UInt64.not_le, UInt64.lt_iff_toNat_lt] at le
    simp only [UInt64.toNat_zero]
    omega

section

variable {log : LogData Command} (unsaturated : log.Unsaturated) {i : Nat}
  {entry : CommandPosition × Command} (found : log.positions[i]? = some entry)

include unsaturated found

theorem sequence_of_positions : entry.1.sequence.toNat = log.entryBaseSeq.toNat + i := by
  have bound : i < log.entries.length := by
    rw [← log.length_positions]
    exact (List.getElem?_eq_some_iff.mp found).1
  rw [positions, List.getElem?_map, List.getElem?_zipIdx, getElem?_eq_getElem bound] at found
  cases found
  have fits : log.entryBaseSeq.toNat + log.entries.length < 2 ^ 64 := unsaturated
  have index : (UInt64.ofNat (0 + i)).toNat = i := by
    rw [Nat.zero_add]
    exact UInt64.toNat_ofNat_of_lt' (by change _ < 2 ^ 64; omega)
  change (saturatingAdd log.entryBaseSeq (UInt64.ofNat (0 + i))).toNat = _
  rw [toNat_saturatingAdd (by omega), index]

/-- A read that continues from the position of an entry starts behind it. -/
theorem start_of_positions : log.start (some entry.1) = i + 1 := by
  have bound : i < log.entries.length := by
    rw [← log.length_positions]
    exact (List.getElem?_eq_some_iff.mp found).1
  have placed := sequence_of_positions unsaturated found
  have fits : log.entryBaseSeq.toNat + log.entries.length < 2 ^ 64 := unsaturated
  have one : (1 : UInt64).toNat = 1 := rfl
  rw [start, toNat_saturatingSub, toNat_saturatingAdd (by omega), placed, one]
  omega

end

/-- The pages yield what pages that pass over an entry yield. -/
theorem readPages_eq (unsaturated : log.Unsaturated) (limit : Nat)
    (from_ : Option CommandPosition) :
    ∃ fuel, log.readPages limit fuel from_ =
      some (pages limit (log.positions.drop (log.start from_))) := by
  generalize remaining : log.positions.drop (log.start from_) = rest
  fun_induction pages limit rest generalizing from_ with
  | case1 rest fits =>
    refine ⟨1, ?_⟩
    have last : (log.readFrom from_ limit).next = none := by
      rw [log.readFrom_next, remaining, drop_eq_nil_of_le fits]
      rfl
    rw [readPages]
    simp only [last]
    rw [log.readFrom_entries, remaining, take_of_length_le fits]
  | case2 rest long ih =>
    obtain ⟨entry, found⟩ : ∃ entry, (rest.drop limit).head? = some entry := by
      rw [head?_drop]
      exact ⟨_, getElem?_eq_getElem (by omega)⟩
    have next : (log.readFrom from_ limit).next = some entry.1 := by
      rw [log.readFrom_next, remaining, found]
      rfl
    have index : log.positions[log.start from_ + limit]? = some entry := by
      rw [← found, ← remaining, drop_drop, head?_drop]
    obtain ⟨fuel, reads⟩ := ih (some entry.1) (by
      rw [start_of_positions unsaturated index, ← remaining, drop_drop]
      congr 1)
    refine ⟨fuel + 1, ?_⟩
    rw [readPages]
    simp only [next]
    rw [reads, log.readFrom_entries, remaining]
    rfl

def after (from_ : Option CommandPosition) (entries : List (CommandPosition × Command)) :
    List (CommandPosition × Command) :=
  entries.filter fun entry => from_.all fun p => p.sequence < entry.1.sequence

theorem filter_eq_drop {l : List α} {test : α → Bool} {n : Nat}
    (suffix : ∀ i a, l[i]? = some a → (test a = true ↔ n ≤ i)) : l.filter test = l.drop n := by
  have low : (l.take n).filter test = [] := by
    rw [filter_eq_nil_iff]
    intro a member
    obtain ⟨i, found⟩ := getElem?_of_mem member
    have small : i < n := by
      have bound := (List.getElem?_eq_some_iff.mp found).1
      rw [List.length_take] at bound
      omega
    rw [getElem?_take_of_lt small] at found
    rw [suffix i a found]
    omega
  have high : (l.drop n).filter test = l.drop n := by
    rw [filter_eq_self]
    intro a member
    obtain ⟨i, found⟩ := getElem?_of_mem member
    rw [getElem?_drop] at found
    exact (suffix _ a found).mpr (Nat.le_add_right n i)
  calc l.filter test = (l.take n ++ l.drop n).filter test := by rw [take_append_drop]
    _ = l.drop n := by rw [filter_append, low, high, nil_append]

theorem after_positions (unsaturated : log.Unsaturated) (from_ : Option CommandPosition) :
    after from_ log.positions = log.positions.drop (log.start from_) := by
  refine filter_eq_drop fun i entry found => ?_
  have placed := sequence_of_positions unsaturated found
  have fits : log.entryBaseSeq.toNat + log.entries.length < 2 ^ 64 := unsaturated
  have bound : i < log.entries.length := by
    rw [← log.length_positions]
    exact (List.getElem?_eq_some_iff.mp found).1
  cases from_ with
  | none => simp [start]
  | some p =>
    have one : (1 : UInt64).toNat = 1 := rfl
    simp only [Option.all_some, decide_eq_true_eq, start, toNat_saturatingSub,
      UInt64.lt_iff_toNat_lt, placed]
    by_cases room : p.sequence.toNat + (1 : UInt64).toNat < 2 ^ 64
    · rw [toNat_saturatingAdd room, one]
      omega
    · -- nothing is after the last sequence number
      have last : (-1 : UInt64).toNat = 2 ^ 64 - 1 := rfl
      rw [saturatingAdd, if_neg room, last]
      omega

/-- Paging yields every entry after the starting position, in order and at the positions that were
returned, exactly when they fit in one page: the cursor of a page is the first entry that is left,
and the read from it begins behind it. -/
theorem paging_complete_iff {log : LogData Command} {events : List (Event Command)}
    (run : Run Step LogData.new events log) (unsaturated : log.Unsaturated)
    (from_ : Option CommandPosition) (limit : Nat) :
    ∃ fuel read, log.readPages limit fuel from_ = some read ∧
      (read = after from_ (events.flatMap Event.returned) ↔
        (after from_ (events.flatMap Event.returned)).length ≤ limit) := by
  obtain ⟨fuel, reads⟩ := readPages_eq unsaturated limit from_
  refine ⟨fuel, _, reads, ?_⟩
  rw [← positions_of_run run, after_positions unsaturated]
  exact pages_eq_self_iff limit _

/-- Two commands appended to a new log. -/
def pair : List (Event Nat) := [.append [7, 8] [⟨0, 0⟩, ⟨0, 1⟩]]

def pairLog : LogData Nat := ⟨0, [(0, 7), (0, 8)], some ⟨0, 1⟩, 0⟩

theorem run_pair : Run Step new pair pairLog := by
  have appended : new.append [7, 8] 0 = .ok (pairLog, [⟨0, 0⟩, ⟨0, 1⟩]) := rfl
  exact .cons (.append appended) (.nil _)

/-- Pages of two commands read both. -/
theorem paging_complete_pair : ∃ fuel, pairLog.readPages 2 fuel none =
    some [(⟨0, 0⟩, 7), (⟨0, 1⟩, 8)] := by
  obtain ⟨fuel, read, reads, whole⟩ := paging_complete_iff run_pair
    (by unfold LogData.Unsaturated; decide) none 2
  exact ⟨fuel, by rw [reads, whole.mpr (by decide)]; rfl⟩

/-- Pages of one command lose the second. -/
theorem paging_loses_second : Run Step LogData.new pair pairLog ∧
    after none (pair.flatMap Event.returned) = [(⟨0, 0⟩, 7), (⟨0, 1⟩, 8)] ∧
    pairLog.readPages 1 2 none = some [(⟨0, 0⟩, 7)] := by
  refine ⟨run_pair, ?_, ?_⟩ <;> rfl

end CommandLog
