import Fireweed.PostfixTrees
import Fireweed.QueueAdministration

/-!
# Evaluation of selectors

The flat selector against its tree. A selector is accepted exactly when it is the
postfix form of one tree of at most `maxSelectorDepth` levels, and its value is
then the recursive one. The evaluator is given twice: with a stack of open
operators, and with the fixed array of optional frames of the source, which
refines it and also records which leaves were evaluated.
-/

namespace QueueAdministration

open List hiding map_map mem_iff_get
open BTree Checked PostfixTrees QueueContract Std

/-! ## Trees -/

abbrev SelectorTree := Tree SelectorNode.arity

namespace SelectorTree

/-- The recursive meaning of a selector under a valuation of its leaves. -/
def value (leaf : SelectorNode → Bool) : SelectorTree → Bool
  | ⟨.all _, operands⟩ => (List.ofFn fun i => value leaf (operands i)).all id
  | ⟨.any _, operands⟩ => (List.ofFn fun i => value leaf (operands i)).any id
  | ⟨.not, operand⟩ => !value leaf (operand ⟨0, Nat.one_pos⟩)
  | ⟨node, _⟩ => leaf node

end SelectorTree

/-- The value of an operator that was fed the given operands. -/
def Frame.closed (frame : Frame) (operands : List Bool) : Bool :=
  let merged := operands.foldl (fun value operand =>
    if frame.all then value && operand else value || operand) frame.value
  if frame.negate then !merged else merged

theorem foldl_and (start : Bool) (l : List Bool) :
    l.foldl (fun value operand => value && operand) start = (start && l.all id) := by
  induction l generalizing start with
  | nil => simp
  | cons head rest ih => simp [ih, Bool.and_assoc]

theorem foldl_or (start : Bool) (l : List Bool) :
    l.foldl (fun value operand => value || operand) start = (start || l.any id) := by
  induction l generalizing start with
  | nil => simp
  | cons head rest ih => simp [ih, Bool.or_assoc]

variable {node : SelectorNode} {frame : Frame}

/-- The frame of an operator computes its value from its operands in reverse. -/
theorem SelectorTree.value_operator (leaf : SelectorNode → Bool)
    (operands : Fin node.arity → SelectorTree) (operator : node.frame = some frame) :
    value leaf ⟨node, operands⟩ = frame.closed ((ofFn operands).reverse.map (value leaf)) := by
  cases node with
  | all n =>
    cases operator
    simp only [value, Frame.closed, if_true, foldl_and, map_reverse, all_reverse, map_ofFn]
    rfl
  | any n =>
    cases operator
    simp only [value, Frame.closed, Bool.false_eq_true, if_false, foldl_or, map_reverse,
      any_reverse, map_ofFn]
    rfl
  | not =>
    cases operator
    have single : ofFn operands = [operands ⟨0, Nat.one_pos⟩] := rfl
    simp [value, Frame.closed, single]
  | _ => cases operator

theorem SelectorTree.value_leaf (leaf : SelectorNode → Bool)
    (operands : Fin node.arity → SelectorTree) (plain : node.frame = none) :
    value leaf ⟨node, operands⟩ = leaf node := by
  cases node <;> cases plain <;> rfl

theorem SelectorNode.arity_of_frame (operator : node.frame = some frame) :
    frame.remaining.toNat = node.arity := by
  cases node <;> cases operator <;> rfl

theorem SelectorNode.arity_of_plain (plain : node.frame = none) : node.arity = 0 := by
  cases node <;> cases plain <;> rfl

theorem SelectorNode.closed_nil (operator : node.frame = some frame) (done : frame.remaining = 0) :
    frame.closed [] = frame.value := by
  cases node <;> cases operator <;> first | rfl | exact absurd done (by decide)

/-! ## The stack of open operators -/

open SelectorTree

open SelectorNode

namespace SelectorTree

open WorkSelector (visit)

/-- What is left after a value was fed to the open operators. -/
def settled (open_ : List Frame) (result value : Bool) : List Frame × Bool :=
  ((feed value open_).1, (feed value open_).2.getD result)

def tooDeep : QueueError := invalid "selector nesting exceeds common limit"

/-- The nodes of a tree feed its value to the operators already open, unless a path of the tree
does not fit over them. -/
def Computes (leaf : SelectorNode → Bool) (tree : SelectorTree) : Prop :=
  ∀ open_ result, (nodes tree).reverse.foldlM (visit leaf) (open_, result) =
    if open_.length + tree.depth ≤ maxSelectorDepth
    then .ok (settled open_ result (tree.value leaf)) else .error tooDeep

section

variable (leaf : SelectorNode → Bool) {open_ : List Frame} (result : Bool)

include leaf result

theorem visit_full (node : SelectorNode) (full : maxSelectorDepth ≤ open_.length) :
    visit leaf (open_, result) node = .error tooDeep := by
  simp [visit, rejectIf, full, tooDeep]

theorem visit_operator (room : open_.length < maxSelectorDepth)
    (operator : node.frame = some frame) :
    visit leaf (open_, result) node =
      if frame.remaining = 0 then .ok (settled open_ result frame.value)
      else .ok (frame :: open_, result) := by
  have fits : decide (open_.length ≥ maxSelectorDepth) = false := decide_eq_false (by omega)
  simp only [visit, fits, rejectIf, operator, settled, bne_iff_ne, ne_eq, ite_not]
  rfl

theorem visit_leaf (room : open_.length < maxSelectorDepth) (plain : node.frame = none) :
    visit leaf (open_, result) node = .ok (settled open_ result (leaf node)) := by
  have fits : decide (open_.length ≥ maxSelectorDepth) = false := decide_eq_false (by omega)
  simp only [visit, fits, rejectIf, plain, settled]
  rfl

end

/-- Feeding all operands of the innermost operator closes it. -/
theorem visit_operands (leaf : SelectorNode → Bool) (trees : List SelectorTree)
    (each : ∀ tree ∈ trees, Computes leaf tree) (frame : Frame) (some_ : trees ≠ [])
    (counted : frame.remaining.toNat = trees.length) (open_ : List Frame) (result : Bool) :
    (trees.flatMap fun tree => (nodes tree).reverse).foldlM (visit leaf) (frame :: open_, result) =
      if ∀ tree ∈ trees, open_.length + 1 + tree.depth ≤ maxSelectorDepth
      then .ok (settled open_ result (frame.closed (trees.map (value leaf))))
      else .error tooDeep := by
  induction trees generalizing frame with
  | nil => exact absurd rfl some_
  | cons tree rest ih =>
    rw [flatMap_cons, foldlM_append, each tree List.mem_cons_self, length_cons]
    by_cases fits : open_.length + 1 + tree.depth ≤ maxSelectorDepth
    · rw [if_pos fits, ok_bind]
      have less : (frame.remaining - 1).toNat = rest.length := by
        rw [UInt32.toNat_sub_of_le _ _ (UInt32.le_iff_toNat_le.mpr (by simp [counted])), counted]
        simp
      rcases rest with _ | ⟨next, rest⟩
      · have last : frame.remaining - 1 = 0 := UInt32.toNat_inj.mp less
        simp [fits, settled, feed, last, Frame.closed, pure, Except.pure]
      · have more : frame.remaining - 1 ≠ 0 := by
          intro none
          rw [none] at less
          simp at less
        have fed : settled (frame :: open_) result (tree.value leaf) =
            ({ frame with
                value := if frame.all then frame.value && tree.value leaf
                  else frame.value || tree.value leaf,
                remaining := frame.remaining - 1 } :: open_, result) := by
          simp [settled, feed, more]
        rw [fed, ih (fun other member => each other (mem_cons_of_mem tree member)) _
          (cons_ne_nil _ _) less]
        simp only [forall_mem_cons (a := tree), fits, true_and, Frame.closed, map_cons, foldl_cons]
    · rw [if_neg fits, if_neg fun all => fits (all tree List.mem_cons_self)]
      rfl

theorem depth_le_iff (operands : Fin node.arity → SelectorTree) (n : Nat) :
    n + (⟨node, operands⟩ : SelectorTree).depth ≤ maxSelectorDepth ↔ n < maxSelectorDepth ∧
      ∀ tree ∈ (ofFn operands).reverse, n + 1 + tree.depth ≤ maxSelectorDepth := by
  have bound : (⟨node, operands⟩ : SelectorTree).depth ≤ maxSelectorDepth - n ↔
      0 < maxSelectorDepth - n ∧ ∀ i, (operands i).depth ≤ maxSelectorDepth - n - 1 := by
    rw [WType.depth, Nat.add_one_le_iff]
    constructor
    · intro small
      refine ⟨by omega, fun i => ?_⟩
      have here := Finset.le_sup (f := fun i => (operands i).depth) (Finset.mem_univ i)
      omega
    · rintro ⟨room, small⟩
      have sup := Finset.sup_le (s := Finset.univ) fun i _ => small i
      omega
  simp only [mem_reverse, mem_ofFn, forall_exists_index, forall_apply_eq_imp_iff]
  constructor
  · intro fits
    obtain ⟨room, small⟩ := bound.mp (by omega)
    refine ⟨by omega, fun i => ?_⟩
    have here := small i
    omega
  · rintro ⟨room, small⟩
    have all := bound.mpr ⟨by omega, fun i => by have here := small i; omega⟩
    omega

/-- Every tree is computed, by induction over it. -/
theorem computes (leaf : SelectorNode → Bool) (tree : SelectorTree) : Computes leaf tree := by
  induction tree with
  | mk node operands ih =>
    intro open_ result
    have start : (nodes (⟨node, operands⟩ : SelectorTree)).reverse =
        node :: (ofFn operands).reverse.flatMap fun tree => (nodes tree).reverse := by
      rw [nodes_eq, reverse_append, reverse_flatMap]
      rfl
    rw [start, foldlM_cons]
    by_cases room : open_.length < maxSelectorDepth
    · cases operator : node.frame with
      | none =>
        have none_ : ofFn operands = [] :=
          length_eq_zero_iff.mp (by simp [arity_of_plain operator])
        rw [visit_leaf leaf result room operator, ok_bind, none_,
          if_pos ((depth_le_iff operands _).mpr ⟨room, by simp [none_]⟩),
          value_leaf leaf operands operator]
        rfl
      | some frame =>
        have counted := arity_of_frame operator
        rw [visit_operator leaf result room operator, value_operator leaf operands operator]
        by_cases done : frame.remaining = 0
        · have none_ : ofFn operands = [] :=
            length_eq_zero_iff.mp (by simp [← counted, done])
          rw [if_pos done, ok_bind, none_,
            if_pos ((depth_le_iff operands _).mpr ⟨room, by simp [none_]⟩)]
          exact congrArg (fun value => Except.ok (settled open_ result value))
            (closed_nil operator done).symm
        · have some_ : (ofFn operands).reverse ≠ [] := by
            intro none
            exact done (UInt32.toNat_inj.mp (by simpa [← counted] using congrArg length none))
          rw [if_neg done, ok_bind, visit_operands leaf _ _ frame some_ (by simp [counted])]
          · simp only [depth_le_iff, room, true_and]
          · intro tree member
            obtain ⟨i, rfl⟩ := mem_ofFn.mp (mem_reverse.mp member)
            exact ih i
    · rw [visit_full leaf result node (Nat.not_lt.mp room),
        if_neg fun fits => room ((depth_le_iff operands _).mp fits).1]
      rfl

end SelectorTree

variable {leaf : SelectorNode → Bool} {call : SelectorNode → QueueResult Bool}

variable (selector : WorkSelector)

namespace WorkSelector

/-- The postfix form of a tree has its value, or is too deep. -/
theorem evaluate_nodes (tree : SelectorTree) (leaf : SelectorNode → Bool) :
    evaluate ⟨PostfixTrees.nodes tree⟩ leaf =
      if tree.depth ≤ maxSelectorDepth then .ok (tree.value leaf)
      else .error tooDeep := by
  have counted : (PostfixTrees.nodes tree).foldlM admitOperand 0 = .ok 1 := count_nodes _ tree 0
  have computed := computes leaf tree [] false
  simp only [evaluate, counted, computed, length_nil, Nat.zero_add]
  by_cases fits : tree.depth ≤ maxSelectorDepth
  · simp [fits, rejectIf, settled, feed]
  · simp [fits, rejectIf]

/-- A list that is no postfix form is refused by the counting pass, whatever its leaves. -/
theorem evaluate_of_no_tree
    (none : ¬∃ tree : SelectorTree, PostfixTrees.nodes tree = selector.nodes) :
    ∃ message ∈ ["invalid selector operand arity", "selector must have exactly one root"],
      ∀ leaf, selector.evaluate leaf = .error (invalid message) := by
  cases counted : selector.nodes.foldlM admitOperand 0 with
  | error e =>
    refine ⟨_, List.mem_cons_self, fun leaf => ?_⟩
    simp [evaluate, counted, count_eq_error counted]
  | ok operands =>
    refine ⟨_, mem_cons_of_mem _ List.mem_cons_self, fun leaf => ?_⟩
    have several : operands ≠ 1 := by
      rintro rfl
      exact none (counted_one_iff.mp counted)
    simp [evaluate, counted, rejectIf, several]

theorem evaluate_eq_ok_iff (leaf : SelectorNode → Bool) (value : Bool) :
    selector.evaluate leaf = .ok value ↔ ∃ tree : SelectorTree,
      PostfixTrees.nodes tree = selector.nodes ∧ tree.depth ≤ maxSelectorDepth ∧
        value = tree.value leaf := by
  constructor
  · intro accepted
    by_cases form : ∃ tree : SelectorTree, PostfixTrees.nodes tree = selector.nodes
    · obtain ⟨tree, form⟩ := form
      obtain ⟨_⟩ := selector
      cases form
      rw [evaluate_nodes] at accepted
      split at accepted
      · next fits => exact ⟨tree, rfl, fits, (Except.ok.inj accepted).symm⟩
      · cases accepted
    · obtain ⟨message, -, refused⟩ := evaluate_of_no_tree selector form
      rw [refused leaf] at accepted
      cases accepted
  · rintro ⟨tree, form, fits, rfl⟩
    obtain ⟨_⟩ := selector
    cases form
    rw [evaluate_nodes, if_pos fits]

/-- The leaves decide the value only: acceptance and the error are the same for all of them. -/
theorem evaluate_uniform (leaf other : SelectorNode → Bool) :
    (selector.evaluate leaf).map (fun _ => ()) = (selector.evaluate other).map fun _ => () := by
  by_cases form : ∃ tree : SelectorTree, PostfixTrees.nodes tree = selector.nodes
  · obtain ⟨tree, form⟩ := form
    obtain ⟨_⟩ := selector
    cases form
    rw [evaluate_nodes, evaluate_nodes]
    split <;> rfl
  · obtain ⟨message, -, refused⟩ := evaluate_of_no_tree selector form
    rw [refused, refused]

/-- The errors of the evaluator: the two of the counting pass and the nesting limit. -/
theorem evaluate_eq_error {selector : WorkSelector} {e : QueueError}
    (refused : selector.evaluate leaf = .error e) :
    ∃ message ∈ ["invalid selector operand arity", "selector must have exactly one root",
      "selector nesting exceeds common limit"], e = invalid message := by
  by_cases form : ∃ tree : SelectorTree, PostfixTrees.nodes tree = selector.nodes
  · obtain ⟨tree, form⟩ := form
    obtain ⟨_⟩ := selector
    cases form
    rw [evaluate_nodes] at refused
    split at refused
    · cases refused
    · exact ⟨_, by simp, (Except.error.inj refused).symm⟩
  · obtain ⟨message, among, always⟩ := evaluate_of_no_tree selector form
    rw [always leaf] at refused
    refine ⟨message, ?_, (Except.error.inj refused).symm⟩
    rcases mem_pair.mp among with rfl | rfl <;> simp

end WorkSelector

/-! ## The array of frames -/

/-- The scratch of the evaluator: the array of frames, the number of open ones, the value of the
program once a root was completed, and the nodes the leaf function was called on. -/
structure Scratch where
  frames : List (Option Frame)
  depth : Nat
  result : Bool
  calls : List SelectorNode

namespace Scratch

def initial : Scratch := ⟨List.replicate maxSelectorDepth none, 0, false, []⟩

/-- The inner loop: hand a value to the frame below, and go on while frames complete. An empty
slot is the `expect` of the source, and a frame that waits for nothing would underflow. -/
def complete (result : Bool) (value : Bool) :
    Nat → List (Option Frame) → QueueResult (List (Option Frame) × Nat × Bool)
  | 0, frames => .ok (frames, 0, value)
  | depth + 1, frames =>
    match frames[depth]? with
    | some (some frame) =>
      if frame.remaining = 0 then .error .panic
      else
        let merged := if frame.all then frame.value && value else frame.value || value
        let remaining := frame.remaining - 1
        if remaining != 0 then
          .ok (frames.set depth (some { frame with value := merged, remaining := remaining }),
            depth + 1, result)
        else
          complete result (if frame.negate then !merged else merged) depth (frames.set depth none)
    | _ => .error .panic

def settle (s : Scratch) (value : Bool) : QueueResult Scratch := do
  let (frames, depth, result) ← complete s.result value s.depth s.frames
  .ok { s with frames, depth, result }

/-- One round of the main loop; the leaf function may abort. -/
def visit (leaf : SelectorNode → QueueResult Bool) (s : Scratch) (node : SelectorNode) :
    QueueResult Scratch := do
  rejectIf (decide (s.depth ≥ maxSelectorDepth)) (invalid "selector nesting exceeds common limit")
  match node.frame with
  | some frame =>
    if frame.remaining != 0 then
      if s.depth < s.frames.length then
        .ok { s with frames := s.frames.set s.depth (some frame), depth := s.depth + 1 }
      else .error .panic
    else s.settle frame.value
  | none => do
    let value ← leaf node
    { s with calls := s.calls ++ [node] }.settle value

end Scratch

namespace WorkSelector

/-- The evaluator over the array; it also returns the nodes its leaf function was called on. -/
def evaluateInPlace (selector : WorkSelector) (leaf : SelectorNode → QueueResult Bool) :
    QueueResult (Bool × List SelectorNode) := do
  let operands ← selector.nodes.foldlM admitOperand 0
  rejectIf (operands != 1) (invalid "selector must have exactly one root")
  let final ← selector.nodes.reverse.foldlM (Scratch.visit leaf) .initial
  rejectIf (final.depth != 0) (invalid "incomplete selector tree")
  .ok (final.result, final.calls)

end WorkSelector

namespace Scratch

/-- The array holds the open operators, outermost first, and each of them waits for an operand. -/
structure Holds (s : Scratch) (open_ : List Frame) (result : Bool) : Prop where
  size : s.frames.length = maxSelectorDepth
  depth : s.depth = open_.length
  occupied : s.frames.take s.depth = open_.reverse.map some
  waiting : ∀ frame ∈ open_, frame.remaining ≠ 0
  result : s.result = result

theorem complete_feed (result value : Bool) (open_ : List Frame) (frames : List (Option Frame))
    (occupied : frames.take open_.length = open_.reverse.map some)
    (waiting : ∀ frame ∈ open_, frame.remaining ≠ 0) :
    ∃ frames', complete result value open_.length frames =
        .ok (frames', (feed value open_).1.length, (feed value open_).2.getD result) ∧
      frames'.length = frames.length ∧
      frames'.take (feed value open_).1.length = (feed value open_).1.reverse.map some ∧
      ∀ frame ∈ (feed value open_).1, frame.remaining ≠ 0 := by
  induction open_ generalizing value frames with
  | nil => exact ⟨frames, rfl, rfl, by simp [feed], by simp [feed]⟩
  | cons frame rest ih =>
    have top : frames[rest.length]? = some (some frame) := by
      have last := congrArg (fun l => l[rest.length]?) occupied
      simpa [getElem?_append_right] using last
    have below : frames.take rest.length = rest.reverse.map some := by
      have front := congrArg (take rest.length) occupied
      simpa [List.take_take, List.take_append_of_le_length] using front
    have bound : rest.length < frames.length := (List.getElem?_eq_some_iff.mp top).1
    have active := waiting frame List.mem_cons_self
    have others : ∀ f ∈ rest, f.remaining ≠ 0 :=
      fun f member => waiting f (mem_cons_of_mem frame member)
    simp only [length_cons, complete, top, active, if_false, feed, bne_iff_ne, ne_eq, ite_not]
    split
    · obtain ⟨frames', run, size, kept, later⟩ := ih _ (frames.set rest.length none)
        (by rw [take_set_of_le (Nat.le_refl _), below]) others
      exact ⟨frames', run, by simpa using size, kept, later⟩
    · next more =>
      refine ⟨_, rfl, by simp, ?_, ?_⟩
      · rw [length_cons, take_add_one, take_set_of_le (Nat.le_refl _), below]
        simp [bound]
      · exact forall_mem_cons.mpr ⟨more, others⟩

section

variable {s : Scratch} {open_ : List Frame} {result : Bool} (holds : s.Holds open_ result)

include holds

theorem Holds.settle (value : Bool) :
    ∃ s', s.settle value = .ok s' ∧ s'.Holds (settled open_ result value).1
      (settled open_ result value).2 := by
  obtain ⟨frames, run, size, occupied, waiting⟩ := complete_feed result value open_ s.frames
    (holds.depth ▸ holds.occupied) holds.waiting
  refine ⟨{ s with
      frames := frames
      depth := (feed value open_).1.length
      result := (feed value open_).2.getD result }, ?_,
    ⟨size.trans holds.size, rfl, occupied, waiting, rfl⟩⟩
  rw [Scratch.settle, holds.depth, holds.result, run, ok_bind]

theorem Holds.push (room : open_.length < maxSelectorDepth) (more : frame.remaining ≠ 0) :
    Holds { s with frames := s.frames.set s.depth (some frame), depth := s.depth + 1 }
      (frame :: open_) result where
  size := by simpa using holds.size
  depth := by simp [holds.depth]
  occupied := by
    have bound : s.depth < s.frames.length := by rw [holds.size, holds.depth]; exact room
    rw [take_add_one, take_set_of_le (Nat.le_refl _), holds.occupied]
    simp [bound]
  waiting := forall_mem_cons.mpr ⟨more, holds.waiting⟩
  result := holds.result

/-- A round of the array against a round of the stack. -/
theorem Holds.visit (answers : ∀ node, node.frame = none → call node = .ok (leaf node))
    (node : SelectorNode) :
    Agree (fun s' t => Holds s' t.1 t.2) (s.visit call node)
      (WorkSelector.visit leaf (open_, result) node) := by
  by_cases room : open_.length < maxSelectorDepth
  · have fits : rejectIf (decide (s.depth ≥ maxSelectorDepth))
        (invalid "selector nesting exceeds common limit") = .ok () :=
      rejectIf_eq_ok.mpr (decide_eq_false (by have depth := holds.depth; omega))
    cases operator : node.frame with
    | some frame =>
      rw [visit_operator leaf result room operator]
      by_cases done : frame.remaining = 0
      · obtain ⟨s', run, after⟩ := holds.settle frame.value
        simp only [Scratch.visit, fits, ok_bind, operator, done, bne_self_eq_false,
          Bool.false_eq_true, if_false, if_true, run]
        exact after
      · have bound : s.depth < s.frames.length := by rw [holds.size, holds.depth]; exact room
        simp only [Scratch.visit, fits, ok_bind, operator, done, bound, bne_iff_ne, ne_eq,
          not_false_eq_true, if_false, if_true]
        exact holds.push room done
    | none =>
      have called : Holds { s with calls := s.calls ++ [node] } open_ result :=
        ⟨holds.size, holds.depth, holds.occupied, holds.waiting, holds.result⟩
      obtain ⟨s', run, after⟩ := called.settle (leaf node)
      rw [visit_leaf leaf result room operator]
      simp only [Scratch.visit, fits, ok_bind, operator, answers node operator, run]
      exact after
  · rw [visit_full leaf result node (Nat.not_lt.mp room)]
    have full : decide (s.depth ≥ maxSelectorDepth) = true :=
      decide_eq_true (by have depth := holds.depth; omega)
    simp only [Scratch.visit, full, rejectIf]
    rfl

end

theorem settle_calls {s s' : Scratch} {value : Bool} (run : s.settle value = .ok s') :
    s'.calls = s.calls := by
  obtain ⟨⟨frames, depth, result⟩, -, rest⟩ := bind_eq_ok.mp run
  cases rest
  rfl

/-- A round calls the leaf function on a leaf, and on nothing else. -/
theorem visit_calls {s s' : Scratch} (run : s.visit call node = .ok s') :
    s'.calls = s.calls ++ [node].filter fun node => node.frame.isNone := by
  obtain ⟨-, run⟩ := check_bind_eq_ok.mp run
  cases operator : node.frame with
  | some frame =>
    simp only [operator] at run
    split at run
    · split at run
      · cases run
        simp [operator]
      · cases run
    · simp [operator, settle_calls run]
  | none =>
    simp only [operator] at run
    obtain ⟨value, -, run⟩ := bind_eq_ok.mp run
    simp [operator, settle_calls run]

end Scratch

namespace WorkSelector

/-- The leaves of a selector, in the order in which it is evaluated. -/
def leaves (selector : WorkSelector) : List SelectorNode :=
  selector.nodes.reverse.filter fun node => node.frame.isNone

/-- The array refines the stack, and calls the leaf function once for each leaf. -/
theorem evaluateInPlace_eq (answers : ∀ node, node.frame = none → call node = .ok (leaf node)) :
    selector.evaluateInPlace call =
      (selector.evaluate leaf).map fun value => (value, selector.leaves) := by
  have start : Scratch.initial.Holds [] false :=
    ⟨length_replicate .., rfl, rfl, by simp, rfl⟩
  have agree := foldlM_simulation (f := Scratch.visit call) (g := visit leaf)
    (r := fun s t => Scratch.Holds s t.1 t.2) (t := ([], false)) selector.nodes.reverse start
    fun node _ s t holds => holds.visit answers node
  have calls : ∀ final, selector.nodes.reverse.foldlM (Scratch.visit call) .initial = .ok final →
      final.calls = selector.leaves := fun final run =>
    foldlM_invariant (P := fun seen s => s.calls = seen.filter fun node => node.frame.isNone)
      rfl (fun seen node s s' holds step => by
        rw [Scratch.visit_calls step, holds, filter_append]) run
  unfold evaluateInPlace evaluate
  rw [except_map_bind]
  refine congrArg _ (funext fun operands => ?_)
  rw [except_map_bind]
  refine congrArg _ (funext fun _ => ?_)
  cases arrayRun : selector.nodes.reverse.foldlM (Scratch.visit call) .initial with
  | error e =>
    cases stackRun : selector.nodes.reverse.foldlM (visit leaf) ([], false) with
    | error e' =>
      rw [arrayRun, stackRun] at agree
      exact congrArg Except.error agree
    | ok final =>
      rw [arrayRun, stackRun] at agree
      exact agree.elim
  | ok final =>
    cases stackRun : selector.nodes.reverse.foldlM (visit leaf) ([], false) with
    | error e' =>
      rw [arrayRun, stackRun] at agree
      exact agree.elim
    | ok finalStack =>
      rw [arrayRun, stackRun] at agree
      have same : (final.depth != 0) = !finalStack.1.isEmpty := by
        rw [agree.depth]
        cases finalStack.1 <;> rfl
      simp only [ok_bind, same, agree.result, calls final arrayRun, except_map_bind]
      rfl

end WorkSelector

/-! ## The leaves of a record -/

/-- The comparison of an administrative leaf. -/
def Comparison.matches_ {α : Type} [Ord α] (comparison : Comparison) (actual expected : α) : Bool :=
  match comparison, compare actual expected with
  | .equal, .eq => true
  | .before, .lt => true
  | .beforeOrEqual, .lt | .beforeOrEqual, .eq => true
  | .after, .gt => true
  | .afterOrEqual, .gt | .afterOrEqual, .eq => true
  | _, _ => false

def leaseActive (record : WorkRecord) (evaluatedAt : Int64) : Bool :=
  record.lifecycle == .leased && record.leaseExpiresAt.any fun expiry => evaluatedAt < expiry

def effectiveLifecycle (record : WorkRecord) (evaluatedAt : Int64) : Lifecycle :=
  if record.lifecycle == .leased && !leaseActive record evaluatedAt then .pending
  else record.lifecycle

/-- The leaf function of `matches`, which aborts on an operator. -/
def SelectorNode.test (record : WorkRecord) (evaluatedAt : Int64) :
    SelectorNode → QueueResult Bool
  | .field name predicate => .ok (predicate.matches_ record.work.fields[name]?)
  | .present name expected => .ok (record.work.fields.contains name == expected)
  | .keys listed => .ok (listed.contains record.work.key)
  | .storedLifecycleIn states => .ok (states.contains record.lifecycle)
  | .effectiveLifecycleIn states => .ok (states.contains (effectiveLifecycle record evaluatedAt))
  | .attempts comparison value => .ok (comparison.matches_ record.attempts value)
  | .availableAt comparison value => .ok (comparison.matches_ record.work.availableAt value)
  | .leaseActive expected =>
    .ok (QueueAdministration.leaseActive record evaluatedAt == expected)
  | .all _ | .any _ | .not => .error .panic

/-- What a leaf says about a record. -/
def SelectorNode.holdsOf (record : WorkRecord) (evaluatedAt : Int64) (node : SelectorNode) : Bool :=
  (node.test record evaluatedAt).toOption.getD false

theorem SelectorNode.test_leaf (record : WorkRecord) (evaluatedAt : Int64) (node : SelectorNode)
    (plain : node.frame = none) :
    node.test record evaluatedAt = .ok (node.holdsOf record evaluatedAt) := by
  cases node <;> cases plain <;> rfl

namespace WorkSelector

/-- A refused program matches nothing; an abort stays an abort. -/
def matches_ (selector : WorkSelector) (record : WorkRecord) (evaluatedAt : Int64) :
    QueueResult Bool :=
  match selector.evaluateInPlace (SelectorNode.test record evaluatedAt) with
  | .ok (value, _) => .ok value
  | .error .panic => .error .panic
  | .error _ => .ok false

/-! ## The evaluator is the tree semantics -/

/-- The evaluator accepts exactly the postfix forms of trees of at most `maxSelectorDepth` levels,
returns the recursive value and evaluates each leaf once; whether it accepts does not depend on
the leaves, it never aborts and never ends with an open operator. A validated selector is
therefore matched by its tree. -/
theorem evaluateInPlace_tree_semantics (selector : WorkSelector) :
    (∀ (leaf : SelectorNode → Bool) value calls,
        selector.evaluateInPlace (fun node => .ok (leaf node)) = .ok (value, calls) ↔
          ∃ tree : SelectorTree, PostfixTrees.nodes tree = selector.nodes ∧
            tree.depth ≤ maxSelectorDepth ∧ value = tree.value leaf ∧ calls = selector.leaves) ∧
      (∀ leaf other : SelectorNode → Bool,
        (selector.evaluateInPlace fun node => .ok (leaf node)).map (fun _ => ()) =
          (selector.evaluateInPlace fun node => .ok (other node)).map fun _ => ()) ∧
      (∀ leaf : SelectorNode → Bool,
        selector.evaluateInPlace (fun node => .ok (leaf node)) ≠ .error .panic ∧
        selector.evaluateInPlace (fun node => .ok (leaf node)) ≠
          .error (invalid "incomplete selector tree")) ∧
      ∀ definition, selector.validate definition = .ok () → ∀ record evaluatedAt,
        ∃ tree : SelectorTree, PostfixTrees.nodes tree = selector.nodes ∧
          selector.evaluateInPlace (SelectorNode.test record evaluatedAt) =
            .ok (tree.value (SelectorNode.holdsOf record evaluatedAt), selector.leaves) ∧
          selector.matches_ record evaluatedAt =
            .ok (tree.value (SelectorNode.holdsOf record evaluatedAt)) := by
  have total (leaf : SelectorNode → Bool) : selector.evaluateInPlace (fun node => .ok (leaf node)) =
      (selector.evaluate leaf).map fun value => (value, selector.leaves) :=
    selector.evaluateInPlace_eq fun _ _ => rfl
  refine ⟨fun leaf value calls => ?_, fun leaf other => ?_, fun leaf => ?_, ?_⟩
  · rw [total, map_eq_ok]
    constructor
    · rintro ⟨value, accepted, ⟨⟩⟩
      obtain ⟨tree, form, fits, rfl⟩ := (selector.evaluate_eq_ok_iff leaf value).mp accepted
      exact ⟨tree, form, fits, rfl, rfl⟩
    · rintro ⟨tree, form, fits, rfl, rfl⟩
      exact ⟨_, (selector.evaluate_eq_ok_iff leaf _).mpr ⟨tree, form, fits, rfl⟩, rfl⟩
  · rw [total, total, map_map, map_map]
    exact selector.evaluate_uniform leaf other
  · rw [total]
    constructor <;>
    · intro refused
      obtain ⟨message, among, same⟩ := evaluate_eq_error (map_eq_error.mp refused)
      revert same
      simp only [mem_cons, not_mem_nil, or_false] at among
      rcases among with rfl | rfl | rfl <;> decide
  · intro definition valid record evaluatedAt
    obtain ⟨value, accepted, -⟩ := bind_eq_ok.mp valid
    obtain ⟨tree, form, fits, -⟩ := (selector.evaluate_eq_ok_iff _ _).mp accepted
    have run : selector.evaluateInPlace (SelectorNode.test record evaluatedAt) =
        .ok (tree.value (SelectorNode.holdsOf record evaluatedAt), selector.leaves) := by
      rw [selector.evaluateInPlace_eq (SelectorNode.test_leaf record evaluatedAt),
        (selector.evaluate_eq_ok_iff _ _).mpr ⟨tree, form, fits, rfl⟩]
      rfl
    exact ⟨tree, form, run, by rw [matches_, run]⟩

theorem evaluateInPlace_tree_semantics_presentUnleased :
    let selector : WorkSelector := ⟨[.present "a" true, .leaseActive true, .not, .all 2]⟩
    let definition : CollectionDefinition :=
      ⟨(∅ : BTreeMap String FieldType).insert "a" .integer, ∅, ∅, ∅⟩
    selector.validate definition = .ok () ∧ ∀ record evaluatedAt, ∃ tree : SelectorTree,
      PostfixTrees.nodes tree = selector.nodes ∧
        selector.matches_ record evaluatedAt =
          .ok (tree.value (SelectorNode.holdsOf record evaluatedAt)) := by
  intro selector definition
  have valid : selector.validate definition = .ok () := by decide +kernel
  refine ⟨valid, fun record evaluatedAt => ?_⟩
  obtain ⟨tree, form, -, matched⟩ :=
    (evaluateInPlace_tree_semantics selector).2.2.2 definition valid record evaluatedAt
  exact ⟨tree, form, matched⟩

end WorkSelector

end QueueAdministration
