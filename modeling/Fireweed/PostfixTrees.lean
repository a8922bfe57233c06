import Fireweed.Checked
import Mathlib.Data.W.Basic

/-!
# Postfix forms of trees

Trees whose nodes have a fixed number of children, written in postfix order, and
the counting pass that recognises such a list: a node takes its operands off a
counter and puts one back. A list is accepted with the count `k` exactly when it
is the concatenation of `k` postfix forms.
-/

namespace PostfixTrees

open Checked List

variable {α ε : Type} {arity : α → Nat}

/-- A node with as many children as its arity. -/
abbrev Tree (arity : α → Nat) := WType fun a => Fin (arity a)

/-- The children in order, and the node last. -/
def nodes : Tree arity → List α
  | ⟨a, children⟩ => (List.ofFn fun i => nodes (children i)).flatten ++ [a]

/-- The node over a list of subtrees of the right length. -/
def join (a : α) (children : List (Tree arity)) (enough : children.length = arity a) :
    Tree arity :=
  ⟨a, fun i => children.get (i.cast enough.symm)⟩

theorem ofFn_get_cast {β : Type} (l : List β) {n : Nat} (same : l.length = n) :
    ofFn (fun i : Fin n => l.get (i.cast same.symm)) = l := by
  subst same
  exact ofFn_get l

theorem nodes_join (a : α) (children : List (Tree arity)) (enough : children.length = arity a) :
    nodes (join a children enough) = children.flatMap nodes ++ [a] := by
  have mapped : ofFn (fun i => nodes (children.get (i.cast enough.symm))) =
      children.map nodes := by
    conv_rhs => rw [← ofFn_get_cast children enough, map_ofFn]
    rfl
  rw [join, nodes, mapped, flatMap_def]

theorem nodes_eq (a : α) (f : Fin (arity a) → Tree arity) :
    nodes ⟨a, f⟩ = (ofFn f).flatMap nodes ++ [a] := by
  rw [nodes, flatMap_def, map_ofFn]
  rfl

/-! ## The counting pass -/

/-- Take the operands of a node off the counter and put its result back. -/
def operand (arity : α → Nat) (e : ε) (operands : Nat) (a : α) : Except ε Nat :=
  if operands < arity a then .error e else .ok (operands - arity a + 1)

variable {e : ε} {l : List α}

theorem operand_eq_ok {operands result : Nat} {a : α} :
    operand arity e operands a = .ok result ↔
      arity a ≤ operands ∧ result = operands - arity a + 1 := by
  unfold operand
  split
  · simp
    omega
  · simp
    omega

theorem count_eq_error {e' : ε} {n : Nat} (refused : l.foldlM (operand arity e) n = .error e') :
    e' = e := by
  induction l generalizing n with
  | nil => cases refused
  | cons a rest ih =>
    rw [foldlM_cons] at refused
    by_cases few : n < arity a
    · simp only [operand, few, if_true, error_bind] at refused
      exact (Except.error.inj refused).symm
    · simp only [operand, few, if_false, ok_bind] at refused
      exact ih refused

/-- Segments that each leave one more operand leave as many as there are. -/
theorem foldlM_flatten {f : Nat → α → Except ε Nat} (segments : List (List α))
    (each : ∀ l ∈ segments, ∀ n, l.foldlM f n = .ok (n + 1)) (n : Nat) :
    segments.flatten.foldlM f n = .ok (n + segments.length) := by
  induction segments generalizing n with
  | nil => rfl
  | cons l rest ih =>
    rw [flatten_cons, foldlM_append, each l mem_cons_self, ok_bind,
      ih fun l' member => each l' (mem_cons_of_mem l member)]
    simp only [length_cons]
    congr 1
    omega

/-- A postfix form leaves one operand. -/
theorem count_nodes (e : ε) (tree : Tree arity) (n : Nat) :
    (nodes tree).foldlM (operand arity e) n = .ok (n + 1) := by
  induction tree generalizing n with
  | mk a f ih =>
    have below := foldlM_flatten (f := operand arity e) (ofFn fun i => nodes (f i))
      (fun l member n => by
        obtain ⟨i, rfl⟩ := (mem_ofFn' _ _).mp member
        exact ih i n) n
    rw [nodes, foldlM_append, below, ok_bind, foldlM_cons, length_ofFn,
      operand_eq_ok.mpr ⟨by omega, rfl⟩]
    simp

/-- An accepted list is a sequence of postfix forms, one for each operand left. -/
theorem exists_forest {k : Nat} (accepted : l.foldlM (operand arity e) 0 = .ok k) :
    ∃ trees : List (Tree arity), trees.length = k ∧ trees.flatMap nodes = l := by
  refine foldlM_invariant
    (P := fun seen n => ∃ trees : List (Tree arity), trees.length = n ∧ trees.flatMap nodes = seen)
    ⟨[], rfl, rfl⟩ ?_ accepted
  rintro seen a n n' ⟨trees, counted, flat⟩ taken
  obtain ⟨enough, rfl⟩ := operand_eq_ok.mp taken
  -- The node takes the last trees of the forest as its children.
  have last : (trees.drop (n - arity a)).length = arity a := by
    rw [length_drop]
    omega
  refine ⟨trees.take (n - arity a) ++ [join a _ last], ?_, ?_⟩
  · rw [length_append, length_take, length_singleton]
    omega
  · rw [flatMap_append, flatMap_singleton, nodes_join, ← append_assoc,
      ← flatMap_append, take_append_drop, flat]

/-- The lists that leave a single operand are the postfix forms of trees. -/
theorem counted_one_iff :
    l.foldlM (operand arity e) 0 = .ok 1 ↔ ∃ tree : Tree arity, nodes tree = l := by
  constructor
  · intro accepted
    obtain ⟨trees, single, flat⟩ := exists_forest accepted
    obtain ⟨tree, rfl⟩ := length_eq_one_iff.mp single
    exact ⟨tree, by simpa using flat⟩
  · rintro ⟨tree, rfl⟩
    exact count_nodes e tree 0

end PostfixTrees
