import Mathlib.Algebra.BigOperators.Group.Multiset.Basic
import Mathlib.Algebra.Order.BigOperators.Group.Multiset

/-!
# Amounts held under keys

A ledger is a multiset of amounts, each held under a key. Its total is the sum of
all amounts, the share of a key is the sum of the amounts held under it.
-/

namespace Ledger

variable {κ : Type}

def total (holdings : Multiset (κ × Nat)) : Nat := (holdings.map Prod.snd).sum

def share [DecidableEq κ] (holdings : Multiset (κ × Nat)) (key : κ) : Nat :=
  ((holdings.filter (·.1 = key)).map Prod.snd).sum

@[simp] theorem total_cons (key : κ) (amount : Nat) (holdings : Multiset (κ × Nat)) :
    total ((key, amount) ::ₘ holdings) = amount + total holdings := by
  simp [total]

variable [DecidableEq κ]

@[simp] theorem share_zero (key : κ) : share (0 : Multiset (κ × Nat)) key = 0 := rfl

theorem share_cons (key other : κ) (amount : Nat) (holdings : Multiset (κ × Nat)) :
    share ((key, amount) ::ₘ holdings) other =
      (if key = other then amount else 0) + share holdings other := by
  by_cases same : key = other
  · simp [share, same]
  · simp [share, same]

variable {holdings : Multiset (κ × Nat)}

theorem total_erase {key : κ} {amount : Nat} (held : (key, amount) ∈ holdings) :
    amount + total (holdings.erase (key, amount)) = total holdings := by
  rw [← total_cons, Multiset.cons_erase held]

theorem share_erase {key : κ} {amount : Nat} (other : κ) (held : (key, amount) ∈ holdings) :
    (if key = other then amount else 0) + share (holdings.erase (key, amount)) other =
      share holdings other := by
  rw [← share_cons, Multiset.cons_erase held]

theorem share_le_total (holdings : Multiset (κ × Nat)) (key : κ) :
    share holdings key ≤ total holdings := by
  induction holdings using Multiset.induction with
  | empty => simp
  | cons entry holdings ih =>
    rw [share_cons, total_cons]
    split <;> omega

end Ledger
