import Fireweed.QueueContract.Values

/-!
# JSON documents

The document tree of the `serde_json` crate without its optional features: numbers
are unsigned, negative or finite floating-point, and an object is the list of its
members in ascending order of the keys, as its map iterates over them.
-/

namespace SerdeJson

open QueueContract

inductive Number where
  | posInt (n : UInt64)
  | negInt (n : Int64) (negative : n < 0)
  | float (x : F64) (finite : x.isFinite = true)
deriving DecidableEq

namespace Number

def asI64 : Number → Option Int64
  | posInt n => if n.toNat < 2 ^ 63 then some n.toInt64 else none
  | negInt n _ => some n
  | float _ _ => none

def asU64 : Number → Option UInt64
  | posInt n => some n
  | negInt _ _ => none
  | float _ _ => none

/-- The value of a number that is no float. -/
def asInt : Number → Option Int
  | posInt n => some n.toNat
  | negInt n _ => some n.toInt
  | float _ _ => none

end Number

inductive Value where
  | null
  | bool (b : Bool)
  | number (n : Number)
  | string (s : String)
  | array (items : List Value)
  | object (members : List (String × Value))

/-- The keys of a map, in the order in which it is iterated. -/
def Ascending {α : Type} (members : List (String × α)) : Prop :=
  members.Pairwise fun a b => compare a.1 b.1 = .lt

namespace Value

def kind : Value → String
  | null => "null"
  | bool _ => "bool"
  | number _ => "number"
  | string _ => "string"
  | array _ => "array"
  | object _ => "object"

/-- How many arrays and objects the reader of JSON text may be inside of, plus one. -/
def recursionLimit : Nat := 128

mutual

/-- How deep arrays and objects are nested. -/
def depth : Value → Nat
  | null | bool _ | number _ | string _ => 0
  | array items => depthItems items + 1
  | object members => depthMembers members + 1

def depthItems : List Value → Nat
  | [] => 0
  | item :: rest => max item.depth (depthItems rest)

def depthMembers : List (String × Value) → Nat
  | [] => 0
  | (_, value) :: rest => max value.depth (depthMembers rest)

end

/-- A document as it is read back from its text. -/
def reread (value : Value) : Except String Value :=
  if value.depth < recursionLimit then .ok value else .error "recursion limit exceeded"

end Value

end SerdeJson
