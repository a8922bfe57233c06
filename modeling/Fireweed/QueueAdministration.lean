import Fireweed.QueueContract.Records

/-!
# Administrative intents

Selectors as flat postfix programs, the actions and operations an administrative
commit carries, and their admission checks. The evaluator walks the program in
reverse with a stack of open operators, at most `maxSelectorDepth` of them.
-/

namespace QueueAdministration

open BTree Checked Postcard QueueContract Std

def maxSelectorDepth : Nat := 64

inductive Comparison where
  | equal
  | before
  | beforeOrEqual
  | after
  | afterOrEqual
deriving DecidableEq, Repr

inductive SelectorNode where
  | all (arity : UInt32)
  | any (arity : UInt32)
  | not
  | field (name : String) (predicate : Predicate)
  | present (name : String) (present : Bool)
  | keys (keys : BTreeSet String)
  | storedLifecycleIn (states : List Lifecycle)
  | effectiveLifecycleIn (states : List Lifecycle)
  | attempts (comparison : Comparison) (value : UInt32)
  | availableAt (comparison : Comparison) (value : Int64)
  | leaseActive (active : Bool)

structure WorkSelector where
  nodes : List SelectorNode

/-- An operator whose operands are not all evaluated yet. -/
structure Frame where
  remaining : UInt32
  all : Bool
  negate : Bool
  value : Bool
deriving DecidableEq, Repr

namespace SelectorNode

def arity : SelectorNode → Nat
  | all n => n.toNat
  | any n => n.toNat
  | not => 1
  | _ => 0

def frame : SelectorNode → Option Frame
  | all n => some ⟨n, true, false, true⟩
  | any n => some ⟨n, false, false, false⟩
  | not => some ⟨1, true, true, true⟩
  | _ => none

end SelectorNode

/-- Feed one value to the innermost open operator; a completed operator feeds the next one.
The value of the whole program is returned when no operator is open. -/
def feed (value : Bool) : List Frame → List Frame × Option Bool
  | [] => ([], some value)
  | frame :: open_ =>
    let merged := if frame.all then frame.value && value else frame.value || value
    let remaining := frame.remaining - 1
    if remaining != 0 then ({ frame with value := merged, remaining := remaining } :: open_, none)
    else feed (if frame.negate then !merged else merged) open_

namespace WorkSelector

def admitOperand (operands : Nat) (node : SelectorNode) : QueueResult Nat :=
  if operands < node.arity then .error (invalid "invalid selector operand arity")
  else .ok (operands - node.arity + 1)

def visit (leaf : SelectorNode → Bool) (state : List Frame × Bool) (node : SelectorNode) :
    QueueResult (List Frame × Bool) := do
  rejectIf (decide (state.1.length ≥ maxSelectorDepth))
    (invalid "selector nesting exceeds common limit")
  match node.frame with
  | some frame =>
    if frame.remaining != 0 then .ok (frame :: state.1, state.2)
    else
      let fed := feed frame.value state.1
      .ok (fed.1, fed.2.getD state.2)
  | none =>
    let fed := feed (leaf node) state.1
    .ok (fed.1, fed.2.getD state.2)

def evaluate (selector : WorkSelector) (leaf : SelectorNode → Bool) : QueueResult Bool := do
  let operands ← selector.nodes.foldlM admitOperand 0
  rejectIf (operands != 1) (invalid "selector must have exactly one root")
  let final ← selector.nodes.reverse.foldlM (visit leaf) ([], false)
  rejectIf (!final.1.isEmpty) (invalid "incomplete selector tree")
  .ok final.2

def validate (selector : WorkSelector) (definition : CollectionDefinition) :
    QueueResult Unit := do
  let _ ← selector.evaluate fun _ => false
  forM selector.nodes fun
    | .field field predicate => validateFieldPredicate definition field predicate
    | .present field _ => do
      name field
      rejectIf (!definition.admitsField field) (invalid "undeclared selector field")
    | .keys keys => forM keys.toList name
    | _ => .ok ()

end WorkSelector

inductive AdministrativeAction where
  | update (patch : WorkPatch) (lifecycle : AdministrativeLifecycle)
      (leaseGuard : AdministrativeLeaseGuard) (removeFieldPrefixes : BTreeSet String)
  | delete (leaseGuard : AdministrativeLeaseGuard)

def AdministrativeAction.validate (action : AdministrativeAction) (schema : QueueSchema)
    (limits : QueueLimits) : QueueResult Unit :=
  match action with
  | .update value _ _ removeFieldPrefixes => do
    patch value schema limits
    forM removeFieldPrefixes.toList fun pre => do
      name pre
      rejectIf (!schema.work.additionalFieldPrefixes.toList.any (startsWith pre))
        (invalid "prefix removal outside provisioned additional namespace")
  | .delete _ => .ok ()

structure AdministrativeEntry where
  key : String
  expectedVersion : Option UInt64
  precondition : WorkSelector
  action : AdministrativeAction

structure AdministrativeClause where
  id : String
  selector : WorkSelector
  precondition : WorkSelector
  action : AdministrativeAction

inductive AdministrativeOperation where
  | addressed (entries : List AdministrativeEntry)
  | selectFirst (clauses : List AdministrativeClause)

structure AdministrativeIntent where
  evaluatedAt : Int64
  operation : AdministrativeOperation
  beforeFields : Option (BTreeSet String)

namespace AdministrativeIntent

def validateBefore (intent : AdministrativeIntent) (schema : QueueSchema) : QueueResult Unit :=
  match intent.beforeFields with
  | some names => forM names.toList fun field => do
      name field
      rejectIf (!schema.work.admitsField field) (invalid "undeclared before field")
  | none => .ok ()

def validateOperation (intent : AdministrativeIntent) (schema : QueueSchema)
    (limits : QueueLimits) : QueueResult Unit :=
  match intent.operation with
  | .addressed entries => do
    rejectIf (decide (entries.length > limits.maxRecords.toNat))
      (invalid "too many addressed administrative entries")
    forM entries fun entry => do
      name entry.key
      entry.precondition.validate schema.work
      entry.action.validate schema limits
  | .selectFirst clauses => do
    rejectIf intent.beforeFields.isSome (invalid "broad administration returns aggregates")
    forM clauses fun clause => do
      name clause.id
      clause.selector.validate schema.work
      clause.precondition.validate schema.work
      clause.action.validate schema limits

def validate (intent : AdministrativeIntent) (schema : QueueSchema) (limits : QueueLimits) :
    QueueResult Unit := do
  schema.validate
  limits.validate
  intent.validateBefore schema
  intent.validateOperation schema limits

end AdministrativeIntent

/-! ## Results -/

structure AdministrativeBefore where
  version : UInt64
  lifecycle : Lifecycle
  availableAt : Int64
  eligibleSince : Int64
  attempts : UInt32
  leaseExpiresAt : Option Int64
  fields : Fields
deriving DecidableEq

inductive AdministrativeOutcome where
  | changed (version : UInt64)
  | deleted (version : UInt64)
  | noChange
  | notFound
  | conflict (actualVersion : UInt64)
  | leased
  | leaseRequired
  | preconditionFailed
  | terminal
  | invalid
  | uniqueConflict
deriving DecidableEq, Repr

inductive AdministrativeOutcomeKind where
  | changed
  | deleted
  | noChange
  | notFound
  | conflict
  | leased
  | leaseRequired
  | preconditionFailed
  | terminal
  | invalid
  | uniqueConflict
deriving DecidableEq, Repr

/-- The declaration order, which is also the wire ordinal. -/
def AdministrativeOutcomeKind.ordinal : AdministrativeOutcomeKind → Nat
  | changed => 0
  | deleted => 1
  | noChange => 2
  | notFound => 3
  | conflict => 4
  | leased => 5
  | leaseRequired => 6
  | preconditionFailed => 7
  | terminal => 8
  | invalid => 9
  | uniqueConflict => 10

instance : Ord AdministrativeOutcomeKind := ⟨compareOn AdministrativeOutcomeKind.ordinal⟩

instance : TransOrd AdministrativeOutcomeKind :=
  inferInstanceAs (TransCmp (compareOn AdministrativeOutcomeKind.ordinal))

structure AdministrativeHistogram where
  matched : UInt64
  outcomes : BTreeMap AdministrativeOutcomeKind UInt64

structure AdministrativeItemResult where
  key : String
  outcome : AdministrativeOutcome
  before : Option AdministrativeBefore
deriving DecidableEq

structure AdministrativeClauseResult where
  id : String
  histogram : AdministrativeHistogram

structure AdministrativeResult where
  histogram : AdministrativeHistogram
  items : List AdministrativeItemResult
  clauses : List AdministrativeClauseResult

/-! ## Wire form -/

instance : Serialize Comparison :=
  ⟨fun
    | .equal => variant 0 []
    | .before => variant 1 []
    | .beforeOrEqual => variant 2 []
    | .after => variant 3 []
    | .afterOrEqual => variant 4 []⟩

instance : Serialize SelectorNode :=
  ⟨fun
    | .all n => variant 0 (serialize n)
    | .any n => variant 1 (serialize n)
    | .not => variant 2 []
    | .field name predicate => variant 3 (serialize name ++ serialize predicate)
    | .present name present => variant 4 (serialize name ++ serialize present)
    | .keys keys => variant 5 (serialize keys)
    | .storedLifecycleIn states => variant 6 (serialize states)
    | .effectiveLifecycleIn states => variant 7 (serialize states)
    | .attempts comparison value => variant 8 (serialize comparison ++ serialize value)
    | .availableAt comparison value => variant 9 (serialize comparison ++ serialize value)
    | .leaseActive active => variant 10 (serialize active)⟩

instance : Serialize WorkSelector := ⟨fun s => serialize s.nodes⟩

instance : Serialize AdministrativeAction :=
  ⟨fun
    | .update patch lifecycle leaseGuard removeFieldPrefixes =>
      variant 0 (serialize patch ++ serialize lifecycle ++ serialize leaseGuard ++
        serialize removeFieldPrefixes)
    | .delete leaseGuard => variant 1 (serialize leaseGuard)⟩

instance : Serialize AdministrativeEntry :=
  ⟨fun e => serialize e.key ++ serialize e.expectedVersion ++ serialize e.precondition ++
    serialize e.action⟩

instance : Serialize AdministrativeClause :=
  ⟨fun c => serialize c.id ++ serialize c.selector ++ serialize c.precondition ++
    serialize c.action⟩

instance : Serialize AdministrativeOperation :=
  ⟨fun
    | .addressed entries => variant 0 (serialize entries)
    | .selectFirst clauses => variant 1 (serialize clauses)⟩

instance : Serialize AdministrativeIntent :=
  ⟨fun i => serialize i.evaluatedAt ++ serialize i.operation ++ serialize i.beforeFields⟩

instance : Serialize AdministrativeBefore :=
  ⟨fun b => serialize b.version ++ serialize b.lifecycle ++ serialize b.availableAt ++
    serialize b.eligibleSince ++ serialize b.attempts ++ serialize b.leaseExpiresAt ++
    serialize b.fields⟩

instance : Serialize AdministrativeOutcome :=
  ⟨fun
    | .changed version => variant 0 (serialize version)
    | .deleted version => variant 1 (serialize version)
    | .noChange => variant 2 []
    | .notFound => variant 3 []
    | .conflict actualVersion => variant 4 (serialize actualVersion)
    | .leased => variant 5 []
    | .leaseRequired => variant 6 []
    | .preconditionFailed => variant 7 []
    | .terminal => variant 8 []
    | .invalid => variant 9 []
    | .uniqueConflict => variant 10 []⟩

instance : Serialize AdministrativeOutcomeKind := ⟨fun kind => variant kind.ordinal []⟩

instance : Serialize AdministrativeHistogram :=
  ⟨fun h => serialize h.matched ++ serialize h.outcomes⟩

instance : Serialize AdministrativeItemResult :=
  ⟨fun r => serialize r.key ++ serialize r.outcome ++ serialize r.before⟩

instance : Serialize AdministrativeClauseResult :=
  ⟨fun r => serialize r.id ++ serialize r.histogram⟩

instance : Serialize AdministrativeResult :=
  ⟨fun r => serialize r.histogram ++ serialize r.items ++ serialize r.clauses⟩

end QueueAdministration
