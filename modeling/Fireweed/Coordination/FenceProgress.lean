import Fireweed.Coordination.FenceExclusion

/-!
# Progress of the selection fence

A waiter at the front of its line should conflict with the holders of its key. An
operation that frees a key passes it on, but a key that stays held by readers is
not looked at again: when a writer in front gives up, the readers behind it wait
until the last holder leaves, although nothing keeps them from sharing the key. In
runs where this does not happen the first waiter of every key conflicts with its
holders in every state.
-/

namespace SelectionFence

open BTree Runs Std WaitingLines SelectionFenceState

variable {K : Type} [Ord K] [TransOrd K] [DecidableEq K]

/-- As long as the fence is open, the first waiter of every key conflicts with its holders. -/
def FirstConflicts (sys : System K) : Prop :=
  sys.fence.closed = false → ∀ key id rest, sys.fence.queueOf key = id :: rest →
    ∃ waiter, sys.fence.waiters[id]? = some waiter ∧
      (waiter.mode = .exclusive ∧
          0 < sys.holders key .shared + sys.holders key .exclusive ∨
        waiter.mode = .shared ∧ 0 < sys.holders key .exclusive)

theorem System.Agrees.firstConflicts [LawfulEqOrd K] {sys : System K} (agrees : sys.Agrees)
    (blocked : Blocked sys.fence) : FirstConflicts sys := by
  intro _ key id rest front
  obtain ⟨entry, found, waiters⟩ : ∃ entry, sys.fence.entries[key]? = some entry ∧
      entry.waiters = id :: rest := by
    cases found : sys.fence.entries[key]? with
    | none => simp [queueOf, found] at front
    | some entry => exact ⟨entry, rfl, by simpa [queueOf, found] using front⟩
  have inLine : id ∈ line key sys.log := by
    rw [← agrees.sound.queues, front]
    exact List.mem_cons_self
  obtain ⟨-, -, waiter, -, -, -, here, -⟩ := agrees.sound.waiter_of_line inLine
  have isHeld := agrees.allHeld key entry found
  have conflict := blocked key entry id rest found waiters
  simp only [FenceEntry.isHeld, Bool.or_eq_true, decide_eq_true_eq] at isHeld
  refine ⟨waiter, here, ?_⟩
  rw [agrees.holders_eq, agrees.holders_eq, found]
  simp only [modeOf, here, Option.map_some, Option.some.injEq] at conflict
  simp only [Option.elim_some, FenceEntry.holders]
  cases mode : waiter.mode with
  | exclusive =>
    refine .inl ⟨rfl, ?_⟩
    rcases isHeld with writer | readers
    · rw [if_pos writer]
      omega
    · omega
  | shared =>
    rcases conflict with exclusive | writer
    · rw [mode] at exclusive
      cases exclusive
    · refine .inr ⟨rfl, ?_⟩
      rw [if_pos writer]
      omega

/-- A step at which no reader is left in front of a key that readers hold. -/
def GuardedStep (before : System K) (action : Action K) (after : System K) : Prop :=
  Unhindered before action ∧ Step before action after

/-- Along every run of such steps, the first waiter of every key conflicts with its holders. -/
theorem guardedRun_firstConflicts [LawfulEqOrd K] {actions : List (Action K)} {sys : System K}
    (run : Run GuardedStep .initial actions sys) (few : joins sys.log < 2 ^ 64) :
    FirstConflicts sys := by
  have kept := run.invariant
    (P := fun sys => joins sys.log < 2 ^ 64 → sys.Agrees ∧ Blocked sys.fence)
    (fun _ => ⟨agrees_initial, fun key entry id rest found => by
      simp [System.initial, SelectionFenceState.new] at found⟩)
    fun before action after kept taken few => by
      obtain ⟨unhindered, taken⟩ := taken
      have fewBefore := Nat.lt_of_le_of_lt
        (joins_le_of_performs (perform_appends before action) taken) few
      obtain ⟨agrees, blocked⟩ := kept fewBefore
      obtain ⟨agrees, keeps⟩ := agrees.step fewBefore taken
      exact ⟨agrees, keeps unhindered blocked⟩
  exact (kept few).1.firstConflicts (kept few).2

/-- A test for the condition on a step. -/
def unhindered (sys : System K) : Action K → Bool
  | .dropAcquire name => match sys.futures[name]? with
    | none => true
    | some future => match future.waiterId, sys.fence.queueOf future.key with
      | some id, first :: next :: _ =>
        first ≠ id || (sys.fence.entries[future.key]?).all FenceEntry.writer ||
          sys.fence.modeOf next = some .exclusive
      | _, _ => true
  | _ => true

omit [DecidableEq K] in
theorem unhindered_sound {sys : System K} {action : Action K}
    (passes : unhindered sys action = true) : Unhindered sys action := by
  cases action with
  | dropAcquire name =>
    intro future id next rest entry found has here waiters
    simp only [unhindered, found, has, queueOf, here, Option.elim_some, waiters] at passes
    simpa using passes
  | _ => trivial

/-- The step of an action that meets the condition. -/
def guardedNext (sys : System K) (action : Action K) : Option (System K) :=
  if unhindered sys action then attempt perform sys action else none

omit [DecidableEq K] in
theorem guardedNext_step (before : System K) (action : Action K) (after : System K)
    (taken : guardedNext before action = some after) : GuardedStep before action after := by
  rw [guardedNext, Option.ite_none_right_eq_some] at taken
  exact ⟨unhindered_sound taken.1, attempt_performs _ before action after taken.2⟩

/-- Two readers wait behind a writer, and the first of them gives up. -/
def readerGivesUp : List (Action String) :=
  [.acquire 0 "q" .exclusive 9, .poll 0 7 0, .acquire 1 "q" .shared 9, .poll 1 7 0,
    .acquire 2 "q" .shared 9, .poll 2 7 0, .dropAcquire 1]

theorem guardedRun_firstConflicts_readerGivesUp : ∃ sys,
    Run GuardedStep System.initial readerGivesUp sys ∧ joins sys.log < 2 ^ 64 ∧
      sys.fence.closed = false ∧ sys.fence.queueOf "q" = [1] ∧ FirstConflicts sys := by
  have computed : (runAll guardedNext System.initial readerGivesUp).map
      (fun sys => (sys.log, sys.fence.closed, sys.fence.queueOf "q")) =
      some ([.entered "q", .joined "q" 0, .joined "q" 1, .left "q" 0], false, [1]) := by
    decide +kernel
  obtain ⟨sys, reached, seen⟩ := Option.map_eq_some_iff.mp computed
  have run := runAll_run guardedNext_step reached
  simp only [Prod.mk.injEq] at seen
  obtain ⟨log, isOpen, queue⟩ := seen
  have few : joins sys.log < 2 ^ 64 := by
    rw [log]
    decide
  exact ⟨sys, run, few, isOpen, queue, guardedRun_firstConflicts run few⟩

/-- A reader holds the key, a writer and another reader wait, and the writer gives up. -/
def writerGivesUp : List (Action String) :=
  [.acquire 0 "q" .shared 9, .poll 0 7 0, .acquire 1 "q" .exclusive 9, .poll 1 7 0,
    .acquire 2 "q" .shared 9, .poll 2 7 0, .dropAcquire 1]

/-- The reader behind the writer that gave up goes on waiting for a key that only a reader
holds. -/
theorem reader_waits_behind_reader : ∃ sys, Run Step System.initial writerGivesUp sys ∧
    sys.fence.closed = false ∧ sys.fence.queueOf "q" = [1] ∧
      sys.fence.waiters[(1 : UInt64)]? = some ⟨.shared, .waiting, some 7⟩ ∧
      sys.holders "q" .shared = 1 ∧ sys.holders "q" .exclusive = 0 ∧ ¬ FirstConflicts sys := by
  have computed : (runAll (attempt perform) System.initial writerGivesUp).map
      (fun sys => (sys.fence.closed, sys.fence.queueOf "q", sys.fence.waiters[(1 : UInt64)]?,
        sys.holders "q" .shared, sys.holders "q" .exclusive)) =
      some (false, [1], some ⟨.shared, .waiting, some 7⟩, 1, 0) := by decide +kernel
  obtain ⟨sys, reached, seen⟩ := Option.map_eq_some_iff.mp computed
  simp only [Prod.mk.injEq] at seen
  obtain ⟨isOpen, queue, waiter, shared, exclusive⟩ := seen
  refine ⟨sys, runAll_run (attempt_performs _) reached, isOpen, queue, waiter, shared, exclusive,
    ?_⟩
  intro conflicts
  obtain ⟨first, here, conflict⟩ := conflicts isOpen "q" 1 [] queue
  rw [waiter, Option.some.injEq] at here
  subst here
  simp [exclusive] at conflict

end SelectionFence
