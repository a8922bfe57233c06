import Fireweed.Checked

/-!
# Computations under a budget

A computation charges a budget and fails when it is exhausted. It needs a finite
budget when every budget from some point on gives one and the same result, and
every other budget only exhausts it.
-/

namespace Budgets

open Checked

variable {ε α β σ : Type} {exhausted : ε}

/-- Every large enough budget gives the result, and a smaller one is at most exhausted. -/
def Enough (exhausted : ε) (run : Nat → Except ε α) (result : α) : Prop :=
  (∀ budget, run budget = .ok result ∨ run budget = .error exhausted) ∧
    ∃ enough, ∀ budget ≥ enough, run budget = .ok result

theorem Enough.of_eq {run : Nat → Except ε α} {result : α}
    (always : ∀ budget, run budget = .ok result) : Enough exhausted run result :=
  ⟨fun budget => .inl (always budget), 0, fun budget _ => always budget⟩

theorem Enough.congr {run other : Nat → Except ε α} {result : α}
    (same : ∀ budget, run budget = other budget) (enough : Enough exhausted other result) :
    Enough exhausted run result := by
  obtain ⟨either, n, runs⟩ := enough
  refine ⟨fun budget => ?_, n, fun budget large => (same budget).trans (runs budget large)⟩
  rw [same budget]
  exact either budget

/-- A charge is within every large enough budget. -/
theorem enough_charge (cost : Nat) :
    Enough exhausted (fun budget => rejectIf (decide (budget < cost)) exhausted) () := by
  refine ⟨fun budget => ?_, cost, fun budget large => ?_⟩
  · by_cases short : budget < cost
    · exact .inr (by simp [rejectIf, short])
    · exact .inl (by simp [rejectIf, short])
  · rw [rejectIf_eq_ok, decide_eq_false_iff_not]
    omega

theorem Enough.bind {run : Nat → Except ε α} {next : Nat → α → Except ε β} {a : α} {b : β}
    (first : Enough exhausted run a) (second : Enough exhausted (fun budget => next budget a) b) :
    Enough exhausted (fun budget => run budget >>= next budget) b := by
  obtain ⟨either, m, first⟩ := first
  obtain ⟨either', n, second⟩ := second
  refine ⟨fun budget => ?_, max m n, fun budget large => ?_⟩
  · change run budget >>= next budget = .ok b ∨ run budget >>= next budget = .error exhausted
    rcases either budget with passed | refused
    · rw [passed, ok_bind]
      exact either' budget
    · rw [refused]
      exact .inr rfl
  · change run budget >>= next budget = .ok b
    rw [first budget (le_trans (le_max_left m n) large), ok_bind]
    exact second budget (le_trans (le_max_right m n) large)

/-- The invariant rule for a loop under a budget. -/
theorem enough_foldlM {step : Nat → σ → α → Except ε σ} (P : List α → σ → Prop) {l : List α}
    {s : σ} (start : P [] s)
    (steps : ∀ seen a rest s, l = seen ++ a :: rest → P seen s →
      ∃ t, Enough exhausted (fun budget => step budget s a) t ∧ P (seen ++ [a]) t) :
    ∃ t, Enough exhausted (fun budget => l.foldlM (step budget) s) t ∧ P l t := by
  have general : ∀ (rest seen : List α) (s : σ), l = seen ++ rest → P seen s →
      ∃ t, Enough exhausted (fun budget => rest.foldlM (step budget) s) t ∧ P l t := by
    intro rest
    induction rest with
    | nil =>
      intro seen s whole holds
      rw [List.append_nil] at whole
      exact ⟨s, .of_eq fun _ => rfl, whole ▸ holds⟩
    | cons a rest ih =>
      intro seen s whole holds
      obtain ⟨t, first, holds'⟩ := steps seen a rest s whole holds
      obtain ⟨u, others, final⟩ := ih (seen ++ [a]) t (by rw [whole, List.append_cons]) holds'
      exact ⟨u, first.bind others, final⟩
  exact general l [] s rfl start

end Budgets
