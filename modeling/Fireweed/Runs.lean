import Fireweed.Checked
import Mathlib.Logic.Relation

/-!
# Runs of a step relation

A run is a finite sequence of labelled steps. Properties of whole runs are
derived from properties of one step: an invariant of states, an invariant that
also speaks of the labels consumed so far, and a preorder between the first and
the last state. The steps of a function that may fail are performed actions; a
log that every action only appends to is longer in later states.
-/

namespace Runs

variable {σ α : Type} {step : σ → α → σ → Prop}

inductive Run (step : σ → α → σ → Prop) : σ → List α → σ → Prop
  | nil (s : σ) : Run step s [] s
  | cons {s t u : σ} {a : α} {l : List α} (head : step s a t) (tail : Run step t l u) :
      Run step s (a :: l) u

variable {l : List α} {s t : σ}

namespace Run

theorem single {a : α} (head : step s a t) : Run step s [a] t := .cons head (.nil t)

theorem append {u : σ} {m : List α} (first : Run step s l t) (second : Run step t m u) :
    Run step s (l ++ m) u := by
  induction first with
  | nil => exact second
  | cons head _ ih => exact .cons head (ih second)

/-- Every state of a run keeps what each step keeps. -/
theorem invariant {P : σ → Prop} (start : P s) (keeps : ∀ s a t, P s → step s a t → P t)
    (run : Run step s l t) : P t := by
  induction run with
  | nil => exact start
  | cons head _ ih => exact ih (keeps _ _ _ start head)

/-- The invariant rule for properties of a state and the labels that led to it. -/
theorem history_invariant {P : List α → σ → Prop} (start : P [] s)
    (extends_ : ∀ past s a t, P past s → step s a t → P (past ++ [a]) t) (run : Run step s l t) :
    P l t := by
  suffices general : ∀ past, P past s → P (past ++ l) t by simpa using general [] start
  clear start
  induction run with
  | nil => intro past holds; simpa using holds
  | cons head _ ih =>
    intro past holds
    have next := ih (past ++ [_]) (extends_ past _ _ _ holds head)
    simpa using next

/-- A preorder that relates the ends of every step from a state with an invariant relates the ends
of every run. -/
theorem relates {P : σ → Prop} {r : σ → σ → Prop} (start : P s)
    (keeps : ∀ s a t, P s → step s a t → P t) (refl : ∀ s, r s s)
    (trans : ∀ s t u, r s t → r t u → r s u) (one : ∀ s a t, P s → step s a t → r s t)
    (run : Run step s l t) : r s t := by
  induction run with
  | nil => exact refl _
  | cons head _ ih =>
    exact trans _ _ _ (one _ _ _ start head) (ih (keeps _ _ _ start head))

theorem mono {step' : σ → α → σ → Prop} (weaker : ∀ s a t, step s a t → step' s a t)
    (run : Run step s l t) : Run step' s l t := by
  induction run with
  | nil => exact .nil _
  | cons head _ ih => exact .cons (weaker _ _ _ head) ih

/-- A counter of 64 bits that every visit moves on comes back to zero. -/
theorem wraps {P : UInt64 → σ → Prop}
    (visited : ∀ id s, P id s → id ≠ 0 → ∃ l t, Run step s l t ∧ P (id + 1) t) (start : P 1 s) :
    ∃ l t, Run step s l t ∧ P 0 t := by
  have counted : ∀ visits < 2 ^ 64, ∃ l t, Run step s l t ∧ P (.ofNat (visits + 1)) t := by
    intro visits fits
    induction visits with
    | zero => exact ⟨[], s, .nil _, start⟩
    | succ visits ih =>
      obtain ⟨l, t, run, holds⟩ := ih (by omega)
      have nonzero : UInt64.ofNat (visits + 1) ≠ 0 := by
        intro zero
        have value := congrArg UInt64.toNat zero
        rw [UInt64.toNat_ofNat_of_lt' fits] at value
        cases value
      obtain ⟨more, u, moved, holds⟩ := visited _ t holds nonzero
      refine ⟨l ++ more, u, run.append moved, ?_⟩
      rw [UInt64.ofNat_add]
      exact holds
  exact counted (2 ^ 64 - 1) (by decide)

end Run

/-- What holds of every label of a log and its past holds of a longer log if it holds of the new
label. -/
theorem splits_snoc {P : List α → α → Prop} {log : List α} {last : α}
    (earlier : ∀ past a rest, log = past ++ a :: rest → P past a) (now : P log last) :
    ∀ past a rest, log ++ [last] = past ++ a :: rest → P past a := by
  intro past a rest split
  rcases List.eq_nil_or_concat rest with rfl | ⟨init, final, rfl⟩
  · obtain ⟨rfl, same⟩ := List.append_inj' split rfl
    cases same
    exact now
  · refine earlier past a init ?_
    rw [List.concat_eq_append, ← List.cons_append, ← List.append_assoc] at split
    exact (List.append_inj' split rfl).1

/-! ## Performed actions -/

section Performed

variable {ε ρ β : Type} (perform : σ → α → Except ε (ρ × σ))

/-- The action does not fail; the reply is not part of the run. -/
def Performs (s : σ) (a : α) (t : σ) : Prop := ∃ reply, perform s a = .ok (reply, t)

/-- The step of an action, if it does not fail. -/
def attempt (s : σ) (a : α) : Option σ := (perform s a).toOption.map Prod.snd

theorem attempt_performs (s : σ) (a : α) (t : σ) (taken : attempt perform s a = some t) :
    Performs perform s a t := by
  obtain ⟨⟨reply, _⟩, performed, rfl⟩ := Option.map_eq_some_iff.mp taken
  exact ⟨reply, Checked.toOption_eq_some.mp performed⟩

/-- A result that only appends to the log of a state. -/
def Appends (log : σ → List β) (s : σ) (result : Except ε (ρ × σ)) : Prop :=
  ∀ reply t, result = .ok (reply, t) → log s <+: log t

namespace Appends

variable {log : σ → List β} {reply : ρ}

theorem same : Appends (ε := ε) log s (.ok (reply, s)) := by
  rintro _ _ ⟨⟩
  exact List.prefix_rfl

theorem more (events : List β) (appended : log t = log s ++ events) :
    Appends (ε := ε) log s (.ok (reply, t)) := by
  rintro _ _ ⟨⟩
  exact ⟨events, appended.symm⟩

theorem bind {δ : Type} {first : Except ε δ} {rest : δ → Except ε (ρ × σ)}
    (appends : ∀ x, Appends log s (rest x)) : Appends log s (first >>= rest) := by
  intro reply t done
  obtain ⟨x, -, done⟩ := Checked.bind_eq_ok.mp done
  exact appends x reply t done

end Appends

end Performed

/-- Take the steps of a function in order; stop where it has none. -/
def runAll (next : σ → α → Option σ) : σ → List α → Option σ
  | s, [] => some s
  | s, a :: l => (next s a).bind (runAll next · l)

theorem runAll_run {next : σ → α → Option σ} (sound : ∀ s a t, next s a = some t → step s a t)
    (taken : runAll next s l = some t) : Run step s l t := by
  induction l generalizing s with
  | nil =>
    cases taken
    exact .nil _
  | cons a l ih =>
    obtain ⟨mid, here, later⟩ := Option.bind_eq_some_iff.mp taken
    exact .cons (sound _ _ _ here) (ih later)

end Runs
