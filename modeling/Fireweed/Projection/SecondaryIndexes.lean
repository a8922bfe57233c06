import Fireweed.Buckets
import Fireweed.Projection.Items

/-!
# Secondary indexes

A unique index maps a composite key to one item, a non-unique index to the set of
items that carry it. A family holds the indexes of a queue under their names;
keys of undeclared names are ignored.
-/

namespace Projection

open BTree Std

inductive SecondaryIndex where
  | unique (entries : BTreeMap Bytes ItemId)
  | nonUnique (entries : Buckets Bytes ItemId)

def emptySecondaryIndex (unique : Bool) : SecondaryIndex :=
  if unique then .unique ∅ else .nonUnique .empty

namespace SecondaryIndex

def isUnique : SecondaryIndex → Bool
  | unique _ => true
  | nonUnique _ => false

/-- A unique index replaces the holder of the key. -/
def insertOneKey (index : SecondaryIndex) (id : ItemId) (key : Bytes) : SecondaryIndex :=
  match index with
  | unique entries => .unique (entries.insert key id)
  | nonUnique entries => .nonUnique (entries.add key id)

/-- A unique index gives the key up only if this item holds it. -/
def removeOneKey (index : SecondaryIndex) (id : ItemId) (key : Bytes) : SecondaryIndex :=
  match index with
  | unique entries => if entries[key]? = some id then .unique (entries.erase key) else index
  | nonUnique entries => .nonUnique (entries.drop key id)

end SecondaryIndex

abbrev IndexFamily := BTreeMap String SecondaryIndex

namespace IndexFamily

/-- Whether an index of this name is unique, if there is one. -/
def kind (family : IndexFamily) (name : String) : Option Bool :=
  family[name]?.map SecondaryIndex.isUnique

def modifyAt (family : IndexFamily) (name : String) (change : SecondaryIndex → SecondaryIndex) :
    IndexFamily :=
  match family[name]? with
  | some index => family.insert name (change index)
  | none => family

def insertKeysInto (family : IndexFamily) (id : ItemId) (keys : List IndexKey) : IndexFamily :=
  keys.foldl (fun family key => modifyAt family key.1 (·.insertOneKey id key.2)) family

def removeKeysFrom (family : IndexFamily) (id : ItemId) (keys : List IndexKey) : IndexFamily :=
  keys.foldl (fun family key => modifyAt family key.1 (·.removeOneKey id key.2)) family

end IndexFamily

end Projection
