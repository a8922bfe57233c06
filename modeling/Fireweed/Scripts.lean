import Mathlib.Logic.Basic

/-!
# Scripts of edits

A script applies edits in order and stops at the first one that fails, with the
state that edit left behind. There is no rollback: what the earlier edits did
stays. A guard holds along a script when it holds of every edit that is reached,
in the state in which it is applied.
-/

namespace Scripts

variable {σ α ε : Type}

structure Outcome (σ ε : Type) where
  state : σ
  error : Option ε

/-- Go on where the first part succeeded. -/
def Outcome.andThen (out : Outcome σ ε) (next : σ → Outcome σ ε) : Outcome σ ε :=
  if out.error.isSome then out else next out.state

variable {next : σ → Outcome σ ε} {out : Outcome σ ε}

theorem Outcome.andThen_of_done (done : out.error = none) : out.andThen next = next out.state := by
  simp [andThen, done]

def run (apply : σ → α → Outcome σ ε) : σ → List α → Outcome σ ε
  | s, [] => ⟨s, none⟩
  | s, a :: rest =>
    let out := apply s a
    if out.error.isSome then out else run apply out.state rest

def Along (apply : σ → α → Outcome σ ε) (guard : σ → α → Prop) : σ → List α → Prop
  | _, [] => True
  | s, a :: rest =>
    guard s a ∧ ((apply s a).error = none → Along apply guard (apply s a).state rest)

variable {apply : σ → α → Outcome σ ε} {guard : σ → α → Prop} {P : σ → Prop}

variable {s : σ} {l : List α}

theorem run_cons_of_error {a : α} {rest : List α} (failed : (apply s a).error.isSome) :
    run apply s (a :: rest) = apply s a := by
  simp [run, failed]

theorem run_cons_of_done {a : α} {rest : List α} (done : (apply s a).error = none) :
    run apply s (a :: rest) = run apply (apply s a).state rest := by
  simp [run, done]

/-- What every guarded edit keeps, a guarded script keeps, also when it stops early. -/
theorem run_invariant (keeps : ∀ s a, P s → guard s a → P (apply s a).state) (start : P s)
    (guarded : Along apply guard s l) : P (run apply s l).state := by
  induction l generalizing s with
  | nil => exact start
  | cons a rest ih =>
    have here := keeps s a start guarded.1
    cases failed : (apply s a).error with
    | some e => rwa [run_cons_of_error (by simp [failed])]
    | none =>
      rw [run_cons_of_done failed]
      exact ih here (guarded.2 failed)

namespace Along

theorem and {other : σ → α → Prop} (left : Along apply guard s l) (right : Along apply other s l) :
    Along apply (fun s a => guard s a ∧ other s a) s l := by
  induction l generalizing s with
  | nil => trivial
  | cons a rest ih => exact ⟨⟨left.1, right.1⟩, fun done => ih (left.2 done) (right.2 done)⟩

/-- A guard that does not look at the state. -/
theorem of_forall (holds : ∀ s, ∀ a ∈ l, guard s a) : Along apply guard s l := by
  induction l generalizing s with
  | nil => trivial
  | cons a rest ih =>
    exact ⟨holds s a List.mem_cons_self, fun _ =>
      ih fun s b member => holds s b (List.mem_cons_of_mem a member)⟩

end Along

end Scripts
