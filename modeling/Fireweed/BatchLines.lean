import Fireweed.Runs
import Mathlib.Data.List.Induction

/-!
# Lines served in batches

Items join the line of a key one by one and leave it from the front in batches. An
item may be withdrawn as long as its batch has not started. A log of what happened
determines the account of every key: who joined, which batches were started, who
was withdrawn in time and who still waits. In an orderly log, batches take the line
from the front and one at a time; then the batches, one after the other, are
the joined items that were not withdrawn, in the order of joining.
-/

namespace BatchLines

open List Runs

variable {κ ι α : Type}

inductive Event (κ ι α : Type) where
  | joined (key : κ) (id : ι) (payload : α)
  | left (key : κ) (id : ι)
  | started (key : κ) (batch : List (ι × α))
  | ended (key : κ)
  /-- All that wait are sent away. -/
  | dispersed
deriving DecidableEq

structure Account (ι α : Type) where
  joined : List (ι × α)
  batches : List (List (ι × α))
  /-- Those that left, or were sent away, before their batch started. -/
  withdrawn : List ι
  /-- A batch has been started and has not ended. -/
  busy : Bool

namespace Account

variable [DecidableEq ι]

def empty : Account ι α := ⟨[], [], [], false⟩

def joinedIds (account : Account ι α) : List ι := account.joined.map Prod.fst

def startedIds (account : Account ι α) : List ι := account.batches.flatten.map Prod.fst

/-- All that joined and were not withdrawn. -/
def survivors (account : Account ι α) : List (ι × α) :=
  account.joined.filter fun item => item.1 ∉ account.withdrawn

/-- The survivors whose batch has not started. -/
def line (account : Account ι α) : List (ι × α) :=
  account.survivors.filter fun item => item.1 ∉ account.startedIds

def withdraw (account : Account ι α) (ids : List ι) : Account ι α :=
  { account with
    withdrawn := account.withdrawn ++ ids.filter fun id => id ∉ account.startedIds }

end Account

variable [DecidableEq κ] [DecidableEq ι]

def Event.post (key : κ) (account : Account ι α) : Event κ ι α → Account ι α
  | .joined k id payload =>
    if k = key then { account with joined := account.joined ++ [(id, payload)] } else account
  | .left k id => if k = key then account.withdraw [id] else account
  | .started k batch =>
    if k = key then { account with batches := account.batches ++ [batch], busy := true }
    else account
  | .ended k => if k = key then { account with busy := false } else account
  | .dispersed => account.withdraw account.joinedIds

def account (key : κ) (log : List (Event κ ι α)) : Account ι α :=
  log.foldl (Event.post key) .empty

/-- An id joins once and leaves only after that. A batch is the front of the line, and it starts
when none is under way. -/
def Event.InTurn (past : List (Event κ ι α)) : Event κ ι α → Prop
  | .joined key id _ => id ∉ (account key past).joinedIds
  | .left key id => id ∈ (account key past).joinedIds
  | .started key batch => (account key past).busy = false ∧ batch <+: (account key past).line
  | .ended key => (account key past).busy = true
  | .dispersed => True

def Orderly (log : List (Event κ ι α)) : Prop :=
  ∀ past event rest, log = past ++ event :: rest → event.InTurn past

theorem account_snoc (key : κ) (log : List (Event κ ι α)) (event : Event κ ι α) :
    account key (log ++ [event]) = event.post key (account key log) := by
  rw [account, foldl_append]
  rfl

def Event.about : Event κ ι α → Option κ
  | .joined key .. | .left key _ | .started key _ | .ended key => some key
  | .dispersed => none

variable {event : Event κ ι α}

open Event

theorem Event.post_other {key other : κ} (about : event.about = some key) (different : key ≠ other)
    (account : Account ι α) : event.post other account = account := by
  cases event with
  | dispersed => cases about
  | _ =>
    cases about
    simp only [post, if_neg different]

open Account

theorem Event.joinedIds_post (event : Event κ ι α) (key : κ) (account : Account ι α) :
    ∀ id ∈ account.joinedIds, id ∈ (event.post key account).joinedIds := by
  intro id member
  cases event with
  | joined =>
    simp only [post]
    split
    · rw [joinedIds, map_append]
      exact mem_append_left _ member
    · exact member
  | dispersed => exact member
  | _ =>
    simp only [post]
    split <;> exact member

theorem orderly_nil : Orderly ([] : List (Event κ ι α)) := by
  intro past event rest split
  simp at split

variable {log : List (Event κ ι α)}

theorem Orderly.snoc (orderly : Orderly log) (turn : event.InTurn log) : Orderly (log ++ [event]) :=
  splits_snoc orderly turn

/-! ## Exact accounts -/

namespace Account

/-- The batches and the line are the survivors, and every id joined once. -/
structure Exact (account : Account ι α) : Prop where
  nodup : account.joinedIds.Nodup
  known : ∀ id ∈ account.withdrawn, id ∈ account.joinedIds
  split : account.batches.flatten ++ account.line = account.survivors

omit [DecidableEq κ]

variable {account : Account ι α} {id : ι} {payload : α}

theorem exact_empty : (empty : Account ι α).Exact :=
  ⟨nodup_nil, fun _ => not_mem_nil.elim, rfl⟩

theorem mem_line {item : ι × α} : item ∈ account.line ↔
    item ∈ account.joined ∧ item.1 ∉ account.withdrawn ∧ item.1 ∉ account.startedIds := by
  simp only [line, survivors, mem_filter, decide_not, Bool.not_eq_true',
  decide_eq_false_iff_not, and_assoc]

namespace Exact

section

variable (exact_ : account.Exact)

include exact_

theorem survivors_nodup : (account.survivors.map Prod.fst).Nodup :=
  exact_.nodup.sublist (filter_sublist.map Prod.fst)

theorem line_nodup : (account.line.map Prod.fst).Nodup :=
  exact_.survivors_nodup.sublist (filter_sublist.map Prod.fst)

theorem started_joined (started : id ∈ account.startedIds) : id ∈ account.joinedIds := by
  obtain ⟨item, member, rfl⟩ := mem_map.mp started
  have survivor : item ∈ account.survivors := by
    rw [← exact_.split]
    exact mem_append_left _ member
  exact mem_map_of_mem (mem_filter.mp survivor).1

theorem join (fresh : id ∉ account.joinedIds) :
    Exact { account with joined := account.joined ++ [(id, payload)] } ∧
      line { account with joined := account.joined ++ [(id, payload)] } =
        account.line ++ [(id, payload)] := by
  have kept : id ∉ account.withdrawn := fun gone => fresh (exact_.known id gone)
  have waits : id ∉ account.startedIds := fun started => fresh (exact_.started_joined started)
  have survivors : survivors
      { account with joined := account.joined ++ [(id, payload)] } =
        account.survivors ++ [(id, payload)] := by
    simp [survivors, kept]
  have line : line { account with joined := account.joined ++ [(id, payload)] } =
      account.line ++ [(id, payload)] := by
    rw [line, survivors, filter_append]
    exact congrArg _ (filter_eq_self.mpr fun item last => by
      rw [mem_singleton.mp last]
      exact decide_eq_true waits)
  refine ⟨⟨?_, fun gone member => ?_, ?_⟩, line⟩
  · rw [joinedIds, map_append]
    refine nodup_append.mpr ⟨exact_.nodup, by simp, fun other member last isLast => ?_⟩
    rw [map_singleton, mem_singleton] at isLast
    rintro rfl
    rw [isLast] at member
    exact fresh member
  · rw [joinedIds, map_append]
    exact mem_append_left _ (exact_.known gone member)
  · rw [line, survivors, ← exact_.split, append_assoc]

theorem withdraw {ids : List ι} (known : ∀ id ∈ ids, id ∈ account.joinedIds) :
    (account.withdraw ids).Exact ∧
      (account.withdraw ids).line = account.line.filter fun item => item.1 ∉ ids := by
  have survivors : (account.withdraw ids).survivors = account.survivors.filter fun item =>
      item.1 ∉ ids.filter fun id => id ∉ account.startedIds := by
    rw [Account.survivors, Account.survivors, filter_filter]
    refine filter_congr fun item _ => ?_
    simp only [Account.withdraw, mem_append, not_or, Bool.decide_and, Bool.and_comm]
  have waiting : ∀ item ∈ account.line,
      (item.1 ∉ ids.filter fun id => id ∉ account.startedIds) ↔ item.1 ∉ ids := by
    intro item member
    have waits := (mem_line.mp member).2.2
    simp [waits]
  have line : (account.withdraw ids).line = account.line.filter fun item => item.1 ∉ ids := by
    rw [← filter_congr fun item member => decide_eq_decide.mpr (waiting item member),
      Account.line, Account.line, survivors, filter_filter, filter_filter]
    exact filter_congr fun item _ => Bool.and_comm ..
  refine ⟨⟨exact_.nodup, fun gone member => ?_, ?_⟩, line⟩
  · rcases mem_append.mp member with before | now
    · exact exact_.known gone before
    · exact known gone (mem_filter.mp now).1
  · rw [line, survivors, ← exact_.split, filter_append]
    congr 1
    · refine (filter_eq_self.mpr fun item member => ?_).symm
      have started : item.1 ∈ account.startedIds := mem_map_of_mem member
      simp [started]
    · exact (filter_congr fun item member => decide_eq_decide.mpr (waiting item member)).symm

/-- The batch leaves the line from the front. -/
theorem start {batch rest : List (ι × α)} (front : account.line = batch ++ rest) (busy : Bool) :
    Exact { account with batches := account.batches ++ [batch], busy } ∧
      line { account with batches := account.batches ++ [batch], busy } = rest := by
  have flatten : (account.batches ++ [batch]).flatten = account.batches.flatten ++ batch := by
    simp
  have line : line { account with batches := account.batches ++ [batch], busy } = rest := by
    have later : line { account with batches := account.batches ++ [batch], busy } =
        account.line.filter fun item => item.1 ∉ batch.map Prod.fst := by
      rw [line, line, filter_filter]
      refine filter_congr fun item _ => ?_
      simp only [startedIds, flatten, map_append, mem_append, not_or, Bool.decide_and]
      exact Bool.and_comm ..
    have nodup := exact_.line_nodup
    rw [front, map_append, nodup_append] at nodup
    obtain ⟨-, -, apart⟩ := nodup
    rw [later, front, filter_append]
    rw [filter_eq_nil_iff.mpr fun item member => ?_, nil_append]
    · refine filter_eq_self.mpr fun item member => decide_eq_true fun taken => ?_
      exact apart _ taken _ (mem_map_of_mem member) rfl
    · simpa using ⟨item.2, member⟩
  refine ⟨⟨exact_.nodup, exact_.known, ?_⟩, line⟩
  rw [line, flatten, append_assoc, ← front]
  exact exact_.split

end

end Exact

end Account

def Event.advance (key : κ) (line : List (ι × α)) : Event κ ι α → List (ι × α)
  | .joined k id payload => if k = key then line ++ [(id, payload)] else line
  | .left k id => if k = key then line.filter fun item => item.1 ∉ [id] else line
  | .started k batch => if k = key then line.drop batch.length else line
  | .ended _ => line
  | .dispersed => []

namespace Account.Exact

variable {key : κ} {log : List (Event κ ι α)} {event : Event κ ι α}

/-- An event in its turn keeps an account exact. -/
theorem post (exact_ : (account key log).Exact) (turn : event.InTurn log) :
    (event.post key (account key log)).Exact ∧
      (event.post key (account key log)).line = event.advance key (account key log).line := by
  cases event with
  | joined k id payload =>
    by_cases here : k = key
    · subst here
      simp only [post, advance, if_pos]
      exact exact_.join turn
    · simpa only [post, advance, if_neg here, and_true] using exact_
  | left k id =>
    by_cases here : k = key
    · subst here
      simp only [post, advance, if_pos]
      exact exact_.withdraw fun other last => by rwa [mem_singleton.mp last]
    · simpa only [post, advance, if_neg here, and_true] using exact_
  | started k batch =>
    by_cases here : k = key
    · subst here
      simp only [post, advance, if_pos]
      obtain ⟨-, rest, front⟩ := turn
      rw [← front, drop_left]
      exact exact_.start front.symm true
    · simpa only [post, advance, if_neg here, and_true] using exact_
  | ended k =>
    simp only [post, advance]
    split
    · exact ⟨⟨exact_.nodup, exact_.known, exact_.split⟩, rfl⟩
    · exact ⟨exact_, rfl⟩
  | dispersed =>
    obtain ⟨kept, line⟩ := exact_.withdraw fun id joined => joined
    refine ⟨kept, line.trans (filter_eq_nil_iff.mpr fun item member => ?_)⟩
    have joined : item.1 ∈ (account key log).joinedIds :=
      mem_map_of_mem (mem_line.mp member).1
    simp [joined]

end Account.Exact

/-- Orderly logs have exact accounts: the batches, one after the other, and the line behind them
are all that joined and were not withdrawn in time, in the order of joining. -/
theorem Orderly.exact (orderly : Orderly log) (key : κ) : (account key log).Exact := by
  induction log using reverseRecOn with
  | nil => exact exact_empty
  | append_singleton log event ih =>
    have earlier : Orderly log := fun past e rest split =>
      orderly past e (rest ++ [event]) (by rw [split, append_assoc, cons_append])
    rw [account_snoc]
    exact ((ih earlier).post (orderly log event [] rfl)).1

end BatchLines
