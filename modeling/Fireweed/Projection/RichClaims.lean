import Fireweed.Grouping
import Fireweed.Projection.Image

/-!
# Claim units

A claim takes single items, items of one group, whole groups or a whole cohort.
Each unit has its own selection over the eligible candidates; a cohort is the live
items of a group that declare a cohort size. An id without a record among the
candidates is a failed expectation of the source: such a selection has no result.
-/

namespace Projection

open BTree Domain Engine Grouping Std

variable {Priority Value Typed : Type}

structure GroupBatching where
  maxGroups : UInt32

structure ClaimCompatibility where
  groupKey : Option GroupKey
  metadataEquals : BTreeMap String Bytes
  groupBatching : Option GroupBatching

structure RichClaimSelection where
  itemIds : List ItemId
  cohortId : Option String
deriving DecidableEq

def RichClaimSelection.default : RichClaimSelection := ⟨[], none⟩

namespace ProjectionData

variable (definition : QueueDefinition Priority Value Typed)
  (data : ProjectionData Priority Value Typed) (compatibility : ClaimCompatibility)
  (now : UtcTimestamp)

/-- The candidates without a limit; the source passes the largest count there is. -/
def allCandidates : List ItemId :=
  data.eligibleCandidates definition now data.eligible.keys.length

/-- The due items in strict order, as they are visited. -/
def visitedCandidates : List ItemId :=
  if data.paused then [] else data.eligible.strictCandidates now data.eligible.keys.length

def metadataMatches (id : ItemId) (required : BTreeMap String Bytes) : Bool :=
  data.items[id]?.any fun item =>
    required.toList.all fun entry => decide (item.metadata[entry.1]? = some entry.2)

/-! ## Items -/

/-- Take suitable items until there are enough. -/
def visitItems (max : Nat) : List ItemId → List ItemId → Option (List ItemId)
  | selected, [] => some selected
  | selected, id :: rest => do
    let item ← data.items[id]?
    if item.cohortSize.isSome then visitItems max selected rest
    else if compatibility.groupKey.any fun required => item.groupKey != some required then
      visitItems max selected rest
    else if !data.metadataMatches id compatibility.metadataEquals then
      visitItems max selected rest
    else if (selected ++ [id]).length < max then visitItems max (selected ++ [id]) rest
    else some (selected ++ [id])

/-- Without a predicate an item claim takes the eligible candidates as they are. -/
def selectItemClaim (max : Nat) : Option (List ItemId) :=
  if max = 0 then some []
  else if compatibility.groupKey.isNone && compatibility.metadataEquals.isEmpty then
    some (data.eligibleCandidates definition now max)
  else data.visitItems compatibility max [] (data.visitedCandidates now)

/-! ## Items of one group -/

/-- The first suitable item decides the group; the bound is compared after each item. -/
def sameGroupFrom (maxItems : Nat) :
    Option GroupKey → List ItemId → List ItemId → Option (List ItemId)
  | _, selected, [] => some selected
  | group, selected, id :: rest => do
    let item ← data.items[id]?
    match item.groupKey with
    | none => sameGroupFrom maxItems group selected rest
    | some groupKey =>
      if item.cohortSize.isSome || (compatibility.groupKey.any fun required => required != groupKey)
          || !data.metadataMatches id compatibility.metadataEquals then
        sameGroupFrom maxItems group selected rest
      else if group.any fun chosen => chosen != groupKey then
        sameGroupFrom maxItems group selected rest
      else if (selected ++ [id]).length = maxItems then some (selected ++ [id])
      else sameGroupFrom maxItems (some groupKey) (selected ++ [id]) rest

def selectSameGroup (maxItems : Nat) : Option (List ItemId) :=
  data.sameGroupFrom compatibility maxItems none [] (data.allCandidates definition now)

/-! ## Whole groups -/

/-- A live item of the group outside of any cohort is leased. -/
def groupLeased (group : GroupKey) : Bool :=
  (data.items.toList.map Prod.snd).any fun member => decide (member.groupKey = some group) &&
    member.cohortSize.isNone && !member.superseded && decide (member.state = .leased)

/-- Collect the suitable candidates by group, in the order of the candidates. -/
def collectGroups : List (GroupKey × List ItemId) → List ItemId →
    Option (List (GroupKey × List ItemId))
  | groups, [] => some groups
  | groups, id :: rest => do
    let item ← data.items[id]?
    match item.groupKey with
    | none => collectGroups groups rest
    | some groupKey =>
      if item.cohortSize.isSome || !data.metadataMatches id compatibility.metadataEquals then
        collectGroups groups rest
      else if data.groupLeased groupKey then collectGroups groups rest
      else collectGroups (pushGroup groups groupKey id) rest

/-- Take groups while they fit; a group that can never fit is refused. -/
def takeGroups (maxItems : Nat) :
    List ItemId → List (GroupKey × List ItemId) → EngineResult (List ItemId)
  | selected, [] => .ok selected
  | selected, (_, group) :: rest =>
    if maxItems < group.length then .error .batchTooLarge
    else if maxItems < selected.length + group.length then .ok selected
    else takeGroups maxItems (selected ++ group) rest

def selectGroupBatching (maxItems : Nat) : Option (EngineResult (List ItemId)) :=
  let maxGroups := (compatibility.groupBatching.map fun batching => batching.maxGroups.toNat).getD 0
  if maxGroups = 0 || maxItems = 0 then some (.ok [])
  else do
    let groups ← data.collectGroups compatibility [] (data.allCandidates definition now)
    some (takeGroups maxItems [] (groups.take maxGroups))

/-! ## A whole cohort -/

/-- The live items that belong to a cohort and are not terminal. -/
def cohortRecords : List (ItemRecord Priority Value Typed) :=
  (data.items.toList.map Prod.snd).filter fun item =>
    !item.superseded && !item.state.isTerminal && item.cohortSize.isSome

def cohorts : BTreeMap GroupKey (List (ItemRecord Priority Value Typed)) :=
  data.cohortRecords.foldl (fun cohorts item =>
    match item.groupKey with
    | none => cohorts
    | some group => cohorts.insert group (cohorts[group]?.getD [] ++ [item])) ∅

/-- Members by sequence. -/
def memberLe (a b : ItemRecord Priority Value Typed) : Bool := decide (a.createdSeq ≤ b.createdSeq)

/-- A cohort all of whose declared members are there and eligible, under its first sequence. -/
def completeCohort (eligible : List ItemId)
    (cohort : GroupKey × List (ItemRecord Priority Value Typed)) :
    Option (UInt64 × GroupKey × List (ItemRecord Priority Value Typed)) := do
  let members := cohort.2.mergeSort memberLe
  let first ← members.head?
  let declared ← first.cohortSize
  if decide (members.length = declared.toNat) && members.all (fun item =>
      decide (item.cohortSize = some declared) && eligible.contains item.itemId &&
        data.metadataMatches item.itemId compatibility.metadataEquals) then
    some (first.createdSeq, cohort.1, members)
  else none

/-- Cohorts by first sequence, then group. -/
def cohortLe (a b : UInt64 × GroupKey × List (ItemRecord Priority Value Typed)) : Bool :=
  ((compare a.1 b.1).then (compare a.2.1 b.2.1)).isLE

def selectWholeCohort (maxItems : Nat) : EngineResult RichClaimSelection :=
  if data.paused then .ok .default
  else
    let eligible := data.allCandidates definition now
    let complete := (data.cohorts.toList.filterMap
      (data.completeCohort compatibility eligible)).mergeSort cohortLe
    match complete with
    | [] => .ok .default
    | (createdSeq, group, members) :: _ =>
      if maxItems < members.length then .error .batchTooLarge
      else
        let memberIds := members.map ItemRecord.itemId
        .ok ⟨(data.allCandidates definition now).filter memberIds.contains,
          some ("coh:" ++ group ++ ":" ++ Nat.repr createdSeq.toNat)⟩

end ProjectionData

end Projection
