import Fireweed.OwnershipFence
import Fireweed.Projection.Data

/-!
# Minting item ids

An item id packs the write epoch, the node and a counter. A push resolves the
epoch first and reserves its counters later, so a request of an old epoch may
reach the counter after one of a new epoch. The counter keeps one epoch for each
queue and starts again at zero whenever a reservation names another one, also an
older one: ids are unique as long as that does not happen.
-/

namespace QueueCounters

open BTree Checked Engine List OwnershipFence Projection Runs Std

variable {Priority Value Typed : Type}

/-! ## Item ids -/

/-- Epoch in the high 24 bits, node in the next 8, counter in the low 32. -/
def mint (epoch : UInt64) (node : UInt8) (counter : UInt32) : ItemId :=
  ((epoch &&& 0xFFFFFF) <<< 40) ||| (node.toUInt64 <<< 32) ||| counter.toUInt64

def epochOf (id : ItemId) : UInt64 := id >>> 40

def counterOf (id : ItemId) : UInt32 := id.toUInt32

/-- The three fields of an id do not overlap. -/
theorem pack_eq {e n c : Nat} (epoch : e < 2 ^ 24) (node : n < 2 ^ 8) (counter : c < 2 ^ 32) :
    ((e &&& 16777215) <<< 40 % 2 ^ 64 ||| n <<< 32 % 2 ^ 64) ||| c =
      e * 2 ^ 40 + (n * 2 ^ 32 + c) := by
  have low : n * 2 ^ 32 + c < 2 ^ 40 := by omega
  have mask : e &&& 16777215 = e := by
    rw [show (16777215 : Nat) = 2 ^ 24 - 1 from rfl, Nat.and_two_pow_sub_one_eq_mod,
      Nat.mod_eq_of_lt epoch]
  have high : e <<< 40 < 2 ^ 64 := by
    rw [Nat.shiftLeft_eq]
    exact Nat.lt_of_lt_of_le ((Nat.mul_lt_mul_right (by decide)).mpr epoch) (by decide)
  have middle : n <<< 32 < 2 ^ 64 := by
    rw [Nat.shiftLeft_eq]
    exact Nat.lt_of_lt_of_le ((Nat.mul_lt_mul_right (by decide)).mpr node) (by decide)
  rw [mask, Nat.mod_eq_of_lt high, Nat.mod_eq_of_lt middle, Nat.lor_assoc,
    ← Nat.shiftLeft_add_eq_or_of_lt counter, Nat.shiftLeft_eq n 32,
    ← Nat.shiftLeft_add_eq_or_of_lt low, Nat.shiftLeft_eq]

theorem mint_toNat {epoch : UInt64} (small : epoch.toNat < 2 ^ 24) (node : UInt8)
    (counter : UInt32) :
    (mint epoch node counter).toNat =
      epoch.toNat * 2 ^ 40 + (node.toNat * 2 ^ 32 + counter.toNat) := by
  rw [← pack_eq small node.toNat_lt counter.toNat_lt]
  simp only [mint, UInt64.toNat_or, UInt64.toNat_shiftLeft, UInt64.toNat_and, UInt8.toNat_toUInt64,
    UInt32.toNat_toUInt64]
  rfl

theorem fields_of_toNat {id : ItemId} {e n c : Nat}
    (packed : id.toNat = e * 2 ^ 40 + (n * 2 ^ 32 + c)) (node : n < 2 ^ 8) (counter : c < 2 ^ 32) :
    (epochOf id).toNat = e ∧ (counterOf id).toNat = c := by
  simp only [epochOf, counterOf, UInt64.toNat_shiftRight, UInt64.toNat_toUInt32, packed]
  rw [show (40 : UInt64).toNat % 64 = 40 from rfl, Nat.shiftRight_eq_div_pow]
  omega

section

variable {epoch : UInt64} (small : epoch.toNat < 2 ^ 24) (node : UInt8)

include small node

theorem epochOf_mint (counter : UInt32) : epochOf (mint epoch node counter) = epoch :=
  UInt64.toNat_inj.mp
    (fields_of_toNat (mint_toNat small node counter) node.toNat_lt counter.toNat_lt).1

theorem counterOf_mint (counter : UInt32) : counterOf (mint epoch node counter) = counter :=
  UInt32.toNat_inj.mp
    (fields_of_toNat (mint_toNat small node counter) node.toNat_lt counter.toNat_lt).2

/-- Within one epoch and node, ids are ordered by their counters. -/
theorem mint_lt {a b : UInt32} (less : a < b) : mint epoch node a < mint epoch node b := by
  rw [UInt64.lt_iff_toNat_lt, mint_toNat small, mint_toNat small]
  have := UInt32.lt_iff_toNat_lt.mp less
  omega

end

/-! ## The counters -/

/-- For each queue the epoch of its counter and the next value. -/
abbrev Counters := BTreeMap QueueKey (UInt64 × UInt32)

/-- The entry a reservation of an epoch counts on. Any other epoch starts again at zero. -/
def entryAt (counters : Counters) (queue : QueueKey) (epoch : UInt64) : UInt64 × UInt32 :=
  let entry := counters[queue]?.getD (epoch, 0)
  if entry.1 ≠ epoch then (epoch, 0) else entry

/-- Reserve consecutive values and return the first. -/
def reserve (counters : Counters) (queue : QueueKey) (epoch : UInt64) (count : UInt32) :
    UInt32 × Counters :=
  let entry := entryAt counters queue epoch
  (entry.2, counters.insert queue (entry.1, entry.2 + count))

/-- Resume past an id that is already stored; the entry is never set back. -/
def observe (counters : Counters) (queue : QueueKey) (id : ItemId) : Counters :=
  let epoch := epochOf id
  let next := counterOf id + 1
  let entry := counters[queue]?.getD (epoch, next)
  counters.insert queue
    (if entry.1 < epoch ∨ (epoch = entry.1 ∧ entry.2 < next) then (epoch, next) else entry)

structure PushSpec (Priority Value Typed : Type) where
  clientItemKey : Option ClientItemKey
  priority : Option Priority
  notBefore : Option Domain.UtcTimestamp
  groupKey : Option GroupKey
  cohortSize : Option UInt64
  payload : Option Bytes
  fields : BTreeMap String Bytes
  metadata : BTreeMap String Bytes
  gateKeys : List String
  indexFields : IndexFields Typed
  entity : Option Value

/-- The item of one spec under its id. The client key defaults to the rendered id. -/
def pushItem (maxAttempts : UInt32) (spec : PushSpec Priority Value Typed) (itemId : ItemId) :
    PushItem Priority Value Typed where
  clientItemKey := spec.clientItemKey.getD itemId.render
  itemId := itemId
  priority := spec.priority
  notBefore := spec.notBefore
  groupKey := spec.groupKey
  cohortSize := spec.cohortSize
  maxAttempts := maxAttempts
  payload := spec.payload
  fields := spec.fields
  metadata := spec.metadata
  gateKeys := spec.gateKeys
  indexFields := spec.indexFields
  entityDocument := spec.entity

/-- The items of a push and their ids: consecutive counters from the base, wrapping. -/
def buildPushItems (specs : List (PushSpec Priority Value Typed)) (epoch : UInt64) (node : UInt8)
    (counterBase : UInt32) (maxAttempts : UInt32) :
    List (PushItem Priority Value Typed) × List ItemId :=
  let items := specs.zipIdx.map fun entry =>
    pushItem maxAttempts entry.1 (mint epoch node (counterBase + UInt32.ofNat entry.2))
  (items, items.map PushItem.itemId)

/-! ## Requests on one node -/

/-- A push that has resolved its epoch and has not reserved yet. -/
structure Request (Priority Value Typed : Type) where
  queue : QueueKey
  epoch : UInt64
  specs : List (PushSpec Priority Value Typed)
  maxAttempts : UInt32

/-- What the node has minted and been told of, in order. -/
inductive Event where
  | minted (queue : QueueKey) (ids : List ItemId)
  | observed (queue : QueueKey) (id : ItemId)
deriving DecidableEq

structure System (Priority Value Typed : Type) where
  /-- The ownership epoch of each queue as its log reports it. -/
  epochs : BTreeMap QueueKey Nat
  counters : Counters
  resolved : List (Request Priority Value Typed)
  history : List Event

def System.initial : System Priority Value Typed := ⟨∅, ∅, [], []⟩

inductive Action (Priority Value Typed : Type) where
  | advanceEpoch (queue : QueueKey) (epoch : Nat)
  | resolve (queue : QueueKey) (expected : Option Nat)
      (specs : List (PushSpec Priority Value Typed)) (maxAttempts : UInt32)
  /-- The request at this place reserves its counters and mints its ids. -/
  | allocate (place : Nat)
  | observe (queue : QueueKey) (id : ItemId)

/-- One step of the node; a request that is fenced leaves no trace. -/
def perform (node : UInt8) (sys : System Priority Value Typed) :
    Action Priority Value Typed → Option (System Priority Value Typed)
  | .advanceEpoch queue epoch =>
    if sys.epochs[queue]?.getD 0 < epoch then
      some { sys with epochs := sys.epochs.insert queue epoch }
    else none
  | .resolve queue expected specs maxAttempts =>
    match resolveWriteEpoch (sys.epochs[queue]?.getD 0) expected with
    | .error _ => some sys
    | .ok epoch =>
      some { sys with
        resolved := sys.resolved ++ [⟨queue, UInt64.ofNat epoch, specs, maxAttempts⟩] }
  | .allocate place =>
    match sys.resolved[place]? with
    | none => none
    | some request =>
      let (base, counters) := reserve sys.counters request.queue request.epoch
        (UInt32.ofNat request.specs.length)
      let built := buildPushItems request.specs request.epoch node base request.maxAttempts
      some { sys with
        counters := counters
        resolved := sys.resolved.eraseIdx place
        history := sys.history ++ [.minted request.queue built.2] }
  | .observe queue id =>
    some { sys with
      counters := QueueCounters.observe sys.counters queue id
      history := sys.history ++ [.observed queue id] }

/-- Epochs fit their 24 bits, and the counter of an epoch does not pass its 32 bits. -/
def InRange (sys : System Priority Value Typed) : Action Priority Value Typed → Prop
  | .advanceEpoch _ epoch => epoch < 2 ^ 24
  | .resolve .. => True
  | .allocate place => ∀ request, sys.resolved[place]? = some request →
    (entryAt sys.counters request.queue request.epoch).2.toNat + request.specs.length < 2 ^ 32
  | .observe _ id => (counterOf id).toNat + 1 < 2 ^ 32

/-- A request does not reserve after its queue has counted in a newer epoch. -/
def NotOvertaken (sys : System Priority Value Typed) : Action Priority Value Typed → Prop
  | .allocate place => ∀ request, sys.resolved[place]? = some request →
    ∀ entry, sys.counters[request.queue]? = some entry → entry.1 ≤ request.epoch
  | _ => True

def Step (node : UInt8) (sys : System Priority Value Typed) (action : Action Priority Value Typed)
    (next : System Priority Value Typed) : Prop :=
  InRange sys action ∧ perform node sys action = some next

def GuardedStep (node : UInt8) (sys : System Priority Value Typed)
    (action : Action Priority Value Typed) (next : System Priority Value Typed) : Prop :=
  NotOvertaken sys action ∧ Step node sys action next

/-! ## Uniqueness -/

def mintedOf (queue : QueueKey) : Event → List ItemId
  | .minted q ids => if q = queue then ids else []
  | .observed _ _ => []

def observedOf (queue : QueueKey) : Event → List ItemId
  | .minted _ _ => []
  | .observed q id => if q = queue then [id] else []

structure UniqueIds (history : List Event) (queue : QueueKey) : Prop where
  distinct : (history.flatMap (mintedOf queue)).Nodup
  unobserved : history.Pairwise fun earlier later =>
    ∀ a ∈ observedOf queue earlier, a ∉ mintedOf queue later
  /-- Within one epoch a later reservation gets greater ids. -/
  ascending : history.Pairwise fun earlier later => ∀ a ∈ mintedOf queue earlier,
    ∀ b ∈ mintedOf queue later, epochOf a = epochOf b → a < b

/-- An id lies before the place where a counter stands. -/
def Passed (entry : UInt64 × UInt32) (id : ItemId) : Prop :=
  (epochOf id).toNat < entry.1.toNat ∨
    ((epochOf id).toNat = entry.1.toNat ∧ (counterOf id).toNat < entry.2.toNat)

/-- Every id of a queue that was minted or observed has been passed by its counter. -/
structure Ahead (node : UInt8) (sys : System Priority Value Typed) : Prop where
  epochs : ∀ queue : QueueKey, sys.epochs[queue]?.getD 0 < 2 ^ 24
  resolved : ∀ request ∈ sys.resolved, request.epoch.toNat < 2 ^ 24
  own : ∀ queue, ∀ event ∈ sys.history, ∀ id ∈ mintedOf queue event,
    ∃ epoch counter, epoch.toNat < 2 ^ 24 ∧ id = mint epoch node counter
  passed : ∀ queue : QueueKey, ∀ event ∈ sys.history,
    ∀ id ∈ mintedOf queue event ++ observedOf queue event,
      ∃ entry, sys.counters[queue]? = some entry ∧ Passed entry id
  unique : ∀ queue, UniqueIds sys.history queue

/-- An event whose ids are new, later than all earlier ones of their epoch, extends the history. -/
theorem UniqueIds.append {history : List Event} {queue : QueueKey}
    (unique : UniqueIds history queue)
    {event : Event} (own : (mintedOf queue event).Nodup)
    (fresh : ∀ earlier ∈ history, ∀ a ∈ mintedOf queue earlier ++ observedOf queue earlier,
      a ∉ mintedOf queue event)
    (later : ∀ earlier ∈ history, ∀ a ∈ mintedOf queue earlier, ∀ b ∈ mintedOf queue event,
      epochOf a = epochOf b → a < b) : UniqueIds (history ++ [event]) queue where
  distinct := by
    rw [flatMap_append, flatMap_singleton]
    refine unique.distinct.append own ?_
    intro a before after
    obtain ⟨earlier, member, here⟩ := mem_flatMap.mp before
    exact fresh earlier member a (mem_append_left _ here) after
  unobserved := by
    refine pairwise_append.mpr ⟨unique.unobserved, pairwise_singleton .., ?_⟩
    intro earlier member last same a here
    rw [mem_singleton.mp same]
    exact fresh earlier member a (mem_append_right _ here)
  ascending := by
    refine pairwise_append.mpr ⟨unique.ascending, pairwise_singleton .., ?_⟩
    intro earlier member last same a here b there
    rw [mem_singleton.mp same] at there
    exact later earlier member a here b there

theorem ahead_initial (node : UInt8) :
    Ahead node (System.initial : System Priority Value Typed) where
  epochs queue := by simp [System.initial]
  resolved request member := by simp [System.initial] at member
  own queue event member := by simp [System.initial] at member
  passed queue event member := by simp [System.initial] at member
  unique queue := ⟨by simp [System.initial], .nil, .nil⟩

/-! ### One step -/

theorem mem_buildPushItems {specs : List (PushSpec Priority Value Typed)} {epoch : UInt64}
    {node : UInt8} {base maxAttempts : UInt32} {id : ItemId} :
    id ∈ (buildPushItems specs epoch node base maxAttempts).2 ↔
      ∃ i < specs.length, id = mint epoch node (base + UInt32.ofNat i) := by
  simp only [buildPushItems, List.map_map, List.mem_map, Function.comp_apply, pushItem]
  constructor
  · rintro ⟨⟨spec, i⟩, member, rfl⟩
    exact ⟨i, (List.mem_zipIdx member).2.1.trans_eq (Nat.zero_add _), rfl⟩
  · rintro ⟨i, small, rfl⟩
    exact ⟨(specs[i], i), List.mk_mem_zipIdx_iff_getElem?.mpr (List.getElem?_eq_getElem small), rfl⟩

/-- Counters that do not wrap are consecutive. -/
theorem counter_toNat {base : UInt32} {i count : Nat} (small : i < count)
    (room : base.toNat + count < 2 ^ 32) : (base + UInt32.ofNat i).toNat = base.toNat + i := by
  rw [UInt32.toNat_add, UInt32.toNat_ofNat']
  omega

theorem buildPushItems_nodup (specs : List (PushSpec Priority Value Typed)) {epoch : UInt64}
    (small : epoch.toNat < 2 ^ 24) (node : UInt8) {base : UInt32} (maxAttempts : UInt32)
    (room : base.toNat + specs.length < 2 ^ 32) :
    (buildPushItems specs epoch node base maxAttempts).2.Nodup := by
  have ids : (buildPushItems specs epoch node base maxAttempts).2 =
      (range specs.length).map fun i => mint epoch node (base + UInt32.ofNat i) := by
    rw [List.range_eq_range', ← List.zipIdx_map_snd 0 specs]
    simp only [buildPushItems, List.map_map]
    rfl
  rw [ids]
  refine Nodup.map_on ?_ nodup_range
  intro i left j right same
  have counters := congrArg (fun id => (counterOf id).toNat) same
  simp only [counterOf_mint small] at counters
  rw [counter_toNat (mem_range.mp left) room, counter_toNat (mem_range.mp right) room]
    at counters
  omega

/-- What lies before an entry lies before every later one. -/
theorem Passed.mono {entry entry' : UInt64 × UInt32} {id : ItemId} (passed : Passed entry id)
    (later : entry.1.toNat < entry'.1.toNat ∨
      (entry.1.toNat = entry'.1.toNat ∧ entry.2.toNat ≤ entry'.2.toNat)) : Passed entry' id := by
  rw [Passed] at passed ⊢
  omega

/-- A reservation that is not overtaken counts on from everything its queue has passed. -/
theorem entryAt_passed {counters : Counters} {queue : QueueKey} {epoch : UInt64}
    {entry : UInt64 × UInt32} (found : counters[queue]? = some entry) (notOlder : entry.1 ≤ epoch)
    {id : ItemId} (passed : Passed entry id) : Passed (entryAt counters queue epoch) id ∨
      (epochOf id).toNat < epoch.toNat := by
  have le := UInt64.le_iff_toNat_le.mp notOlder
  rw [entryAt, found]
  simp only [Option.getD_some]
  split
  · next other =>
    have different : entry.1.toNat ≠ epoch.toNat := fun same => other (UInt64.toNat_inj.mp same)
    rw [Passed] at passed
    omega
  · exact .inl passed

theorem entryAt_epoch (counters : Counters) (queue : QueueKey) (epoch : UInt64) :
    (entryAt counters queue epoch).1 = epoch := by
  rw [entryAt]
  split
  · rfl
  · next same => exact not_not.mp same

theorem resolveWriteEpoch_eq {current epoch : Nat} {expected : Option Nat}
    (resolved : resolveWriteEpoch current expected = .ok epoch) : epoch = current := by
  cases expected with
  | none => exact (Except.ok.inj resolved).symm
  | some wanted =>
    simp only [resolveWriteEpoch, resolveBoundedEpoch] at resolved
    obtain ⟨-, rest⟩ := check_bind_eq_ok.mp resolved
    obtain ⟨-, last⟩ := check_bind_eq_ok.mp rest
    exact (Except.ok.inj last).symm

/-- A minted id is new: what its queue has passed is of another epoch or of a smaller counter. -/
theorem minted_later {counters : Counters} {queue : QueueKey} {epoch : UInt64}
    (small : epoch.toNat < 2 ^ 24) {node : UInt8} {count : Nat}
    (room : (entryAt counters queue epoch).2.toNat + count < 2 ^ 32)
    {entry : UInt64 × UInt32} (found : counters[queue]? = some entry) (notOlder : entry.1 ≤ epoch)
    {a b : ItemId} (passed : Passed entry a) {i : Nat} (member : i < count)
    (minted : b = mint epoch node ((entryAt counters queue epoch).2 + UInt32.ofNat i)) :
    (epochOf a).toNat < (epochOf b).toNat ∨
      (epochOf a).toNat = (epochOf b).toNat ∧ (counterOf a).toNat < (counterOf b).toNat := by
  rw [minted, epochOf_mint small, counterOf_mint small, counter_toNat member room]
  rcases entryAt_passed found notOlder passed with before | older
  · rw [Passed, entryAt_epoch] at before
    omega
  · exact .inl older

theorem Ahead.allocated {node : UInt8} {sys : System Priority Value Typed} (ahead : Ahead node sys)
    {place : Nat} {request : Request Priority Value Typed}
    (here : sys.resolved[place]? = some request)
    (room : (entryAt sys.counters request.queue request.epoch).2.toNat + request.specs.length <
      2 ^ 32)
    (notOlder : ∀ entry, sys.counters[request.queue]? = some entry → entry.1 ≤ request.epoch) :
    Ahead node { sys with
      counters := (reserve sys.counters request.queue request.epoch
        (UInt32.ofNat request.specs.length)).2
      resolved := sys.resolved.eraseIdx place
      history := sys.history ++ [.minted request.queue (buildPushItems request.specs request.epoch
        node (entryAt sys.counters request.queue request.epoch).2 request.maxAttempts).2] } := by
  have small := ahead.resolved request (mem_of_getElem? here)
  have total : ((entryAt sys.counters request.queue request.epoch).2 +
      UInt32.ofNat request.specs.length).toNat =
      (entryAt sys.counters request.queue request.epoch).2.toNat + request.specs.length := by
    rw [UInt32.toNat_add, UInt32.toNat_ofNat']
    omega
  refine ⟨ahead.epochs, ?_, ?_, ?_, ?_⟩
  · intro other member
    exact ahead.resolved other (mem_of_mem_eraseIdx member)
  · intro queue event member id minted
    rcases mem_append.mp member with old | new
    · exact ahead.own queue event old id minted
    · rw [mem_singleton.mp new, mintedOf] at minted
      split at minted
      · obtain ⟨i, -, rfl⟩ := mem_buildPushItems.mp minted
        exact ⟨_, _, small, rfl⟩
      · cases minted
  · intro queue event member id listed
    simp only [reserve, get_insert, entryAt_epoch]
    rcases mem_append.mp member with old | new
    · obtain ⟨entry, found, passed⟩ := ahead.passed queue event old id listed
      by_cases same : request.queue = queue
      · subst same
        refine ⟨_, if_pos rfl, ?_⟩
        rcases entryAt_passed found (notOlder entry found) passed with before | older
        · refine before.mono (.inr ?_)
          rw [entryAt_epoch]
          exact ⟨rfl, by simp only [total]; omega⟩
        · exact .inl older
      · exact ⟨entry, by rw [if_neg same, found], passed⟩
    · rw [mem_singleton.mp new, mintedOf, observedOf, append_nil] at listed
      split at listed
      · next same =>
        obtain ⟨i, member, rfl⟩ := mem_buildPushItems.mp listed
        refine ⟨_, if_pos same, .inr ⟨?_, ?_⟩⟩
        · rw [epochOf_mint small]
        · rw [counterOf_mint small, counter_toNat member room, total]
          omega
      · cases listed
  · intro queue
    by_cases same : request.queue = queue
    · subst same
      have ids : mintedOf request.queue (.minted request.queue (buildPushItems request.specs
          request.epoch node (entryAt sys.counters request.queue request.epoch).2
          request.maxAttempts).2) = _ := if_pos rfl
      refine (ahead.unique _).append ?_ ?_ ?_
      · rw [ids]
        exact buildPushItems_nodup _ small _ _ room
      · intro earlier old a listed again
        rw [ids] at again
        obtain ⟨i, member, minted⟩ := mem_buildPushItems.mp again
        obtain ⟨entry, found, passed⟩ := ahead.passed _ earlier old a listed
        have := minted_later small room found (notOlder entry found) passed member minted
        omega
      · intro earlier old a listed b new sameEpoch
        rw [ids] at new
        obtain ⟨i, member, minted⟩ := mem_buildPushItems.mp new
        obtain ⟨entry, found, passed⟩ :=
          ahead.passed _ earlier old a (mem_append_left _ listed)
        have later := minted_later small room found (notOlder entry found) passed member minted
        obtain ⟨epoch, counter, fits, own⟩ := ahead.own _ earlier old a listed
        rw [own, minted, epochOf_mint fits, epochOf_mint small] at sameEpoch
        rw [own, minted, epochOf_mint fits, epochOf_mint small, counterOf_mint fits,
          counterOf_mint small, sameEpoch] at later
        rw [own, minted, sameEpoch]
        exact mint_lt small node (UInt32.lt_iff_toNat_lt.mpr (by omega))
    · have none : mintedOf queue (.minted request.queue (buildPushItems request.specs
          request.epoch node (entryAt sys.counters request.queue request.epoch).2
          request.maxAttempts).2) = [] := if_neg same
      refine (ahead.unique queue).append ?_ ?_ ?_ <;> simp [none]

/-- Observing an id moves the counter past it and never back. -/
theorem observe_passes (counters : Counters) (queue : QueueKey) {id : ItemId}
    (room : (counterOf id).toNat + 1 < 2 ^ 32) :
    ∃ entry, (observe counters queue id)[queue]? = some entry ∧ Passed entry id ∧
      ∀ old, counters[queue]? = some old → ∀ a, Passed old a → Passed entry a := by
  have next : (counterOf id + 1).toNat = (counterOf id).toNat + 1 := by
    rw [UInt32.toNat_add, UInt32.toNat_one]
    omega
  refine ⟨_, get_insert_self .., ?_, ?_⟩
  · split
    · exact .inr ⟨rfl, by simp only [next]; omega⟩
    · next kept =>
      cases found : counters[queue]? with
      | none => exact .inr ⟨rfl, by simp only [Option.getD_none]; omega⟩
      | some entry =>
        rw [found] at kept
        simp only [Option.getD_some, UInt64.lt_iff_toNat_lt, UInt32.lt_iff_toNat_lt, next,
          ← UInt64.toNat_inj] at kept
        rw [Passed, Option.getD_some]
        omega
  · intro old found a passed
    rw [found]
    simp only [Option.getD_some]
    split
    · next moved =>
      simp only [UInt64.lt_iff_toNat_lt, UInt32.lt_iff_toNat_lt, ← UInt64.toNat_inj] at moved
      refine passed.mono ?_
      simp only
      omega
    · exact passed

theorem Ahead.observed {node : UInt8} {sys : System Priority Value Typed} (ahead : Ahead node sys)
    {queue : QueueKey} {id : ItemId} (room : (counterOf id).toNat + 1 < 2 ^ 32) :
    Ahead node { sys with
      counters := QueueCounters.observe sys.counters queue id
      history := sys.history ++ [.observed queue id] } := by
  obtain ⟨entry, stands, new, kept⟩ := observe_passes sys.counters queue room
  refine ⟨ahead.epochs, ahead.resolved, ?_, ?_, ?_⟩
  · intro other event member a minted
    rcases mem_append.mp member with old | last
    · exact ahead.own other event old a minted
    · rw [mem_singleton.mp last] at minted
      cases minted
  · intro other event member a listed
    rcases mem_append.mp member with old | last
    · obtain ⟨before, found, passed⟩ := ahead.passed other event old a listed
      by_cases same : queue = other
      · subst same
        exact ⟨entry, stands, kept before found a passed⟩
      · exact ⟨before, by rw [QueueCounters.observe, get_insert_ne _ _ same, found], passed⟩
    · rw [mem_singleton.mp last, mintedOf, observedOf, nil_append] at listed
      split at listed
      · next same =>
        rw [mem_singleton.mp listed, ← same]
        exact ⟨entry, stands, new⟩
      · cases listed
  · intro other
    refine (ahead.unique other).append ?_ ?_ ?_ <;> simp [mintedOf]

/-- One step of a request that has not been overtaken keeps every counter ahead of its ids. -/
theorem Ahead.step {node : UInt8} {sys next : System Priority Value Typed}
    {action : Action Priority Value Typed} (ahead : Ahead node sys)
    (taken : GuardedStep node sys action next) : Ahead node next := by
  obtain ⟨notOvertaken, inRange, performed⟩ := taken
  cases action with
  | advanceEpoch queue epoch =>
    simp only [perform] at performed
    split at performed
    · cases performed
      refine ⟨fun other => ?_, ahead.resolved, ahead.own, ahead.passed, ahead.unique⟩
      rw [get_insert]
      split
      · exact inRange
      · exact ahead.epochs other
    · cases performed
  | resolve queue expected specs maxAttempts =>
    simp only [perform] at performed
    split at performed
    · cases performed
      exact ahead
    · next epoch resolved =>
      cases performed
      refine ⟨ahead.epochs, forall_mem_snoc ahead.resolved ?_, ahead.own, ahead.passed,
        ahead.unique⟩
      have small := ahead.epochs queue
      rw [← resolveWriteEpoch_eq resolved] at small
      rw [UInt64.toNat_ofNat']
      exact Nat.lt_of_le_of_lt (Nat.mod_le ..) small
  | allocate place =>
    simp only [perform] at performed
    split at performed
    · cases performed
    · next request here =>
      cases performed
      exact ahead.allocated here (inRange request here) (notOvertaken request here)
  | observe queue id =>
    cases performed
    exact ahead.observed inRange

/-! ### Whole runs -/

instance (sys : System Priority Value Typed) :
    (action : Action Priority Value Typed) → Decidable (InRange sys action)
  | .advanceEpoch _ epoch => inferInstanceAs (Decidable (epoch < 2 ^ 24))
  | .resolve .. => inferInstanceAs (Decidable True)
  | .allocate place => inferInstanceAs (Decidable (∀ request ∈ sys.resolved[place]?,
      (entryAt sys.counters request.queue request.epoch).2.toNat + request.specs.length < 2 ^ 32))
  | .observe _ id => inferInstanceAs (Decidable ((counterOf id).toNat + 1 < 2 ^ 32))

instance (sys : System Priority Value Typed) :
    (action : Action Priority Value Typed) → Decidable (NotOvertaken sys action)
  | .advanceEpoch .. | .resolve .. | .observe .. => inferInstanceAs (Decidable True)
  | .allocate place => decidable_of_iff (sys.resolved[place]?.all fun request =>
      sys.counters[request.queue]?.all fun entry => entry.1 ≤ request.epoch)
      (by simp [NotOvertaken, Option.all_eq_true])

/-- The step of an action that stays in range. -/
def next (node : UInt8) (sys : System Priority Value Typed) (action : Action Priority Value Typed) :
    Option (System Priority Value Typed) :=
  if InRange sys action then perform node sys action else none

/-- The step of an action that also has not been overtaken. -/
def guardedNext (node : UInt8) (sys : System Priority Value Typed)
    (action : Action Priority Value Typed) : Option (System Priority Value Typed) :=
  if NotOvertaken sys action then next node sys action else none

section

variable (node : UInt8) (sys : System Priority Value Typed) (action : Action Priority Value Typed)
  (sys' : System Priority Value Typed)

include node sys action sys'

theorem next_step (taken : next node sys action = some sys') : Step node sys action sys' := by
  simpa [next, Step] using taken

theorem guardedNext_step (taken : guardedNext node sys action = some sys') :
    GuardedStep node sys action sys' := by
  obtain ⟨notOvertaken, inRange⟩ := Option.ite_none_right_eq_some.mp taken
  exact ⟨notOvertaken, next_step _ _ _ _ inRange⟩

end

/-- As long as no request reserves after its queue has counted in a newer epoch, the ids that a
node mints for a queue are distinct, are none of those observed before, and grow within an epoch. -/
theorem guardedRun_uniqueIds {node : UInt8} {actions : List (Action Priority Value Typed)}
    {sys : System Priority Value Typed} (run : Run (GuardedStep node) .initial actions sys)
    (queue : QueueKey) : UniqueIds sys.history queue :=
  (run.invariant (P := Ahead node) (ahead_initial node) fun _ _ _ ahead taken =>
    ahead.step taken).unique queue

def plainSpec : PushSpec Unit Unit Unit where
  clientItemKey := none
  priority := none
  notBefore := none
  groupKey := none
  cohortSize := none
  payload := none
  fields := ∅
  metadata := ∅
  gateKeys := []
  indexFields := ∅
  entity := none

def pushOf (count : Nat) : Action Unit Unit Unit :=
  .resolve ("t", "q") none (List.replicate count plainSpec) 3

/-- Pushes of two epochs around an id found in storage. -/
def inOrderActions : List (Action Unit Unit Unit) :=
  [.advanceEpoch ("t", "q") 1, pushOf 2, pushOf 1, .allocate 1, .allocate 0,
    .advanceEpoch ("t", "q") 2, .observe ("t", "q") (mint 2 9 4), pushOf 2, .allocate 0]

theorem guardedRun_uniqueIds_sample : ∃ sys,
    Run (GuardedStep 7) System.initial inOrderActions sys ∧
      sys.history.flatMap (mintedOf ("t", "q")) =
        [mint 1 7 0, mint 1 7 1, mint 1 7 2, mint 2 7 5, mint 2 7 6] ∧
      UniqueIds sys.history ("t", "q") := by
  have performed : (runAll (guardedNext 7) System.initial inOrderActions).map
      (fun sys => sys.history.flatMap (mintedOf ("t", "q"))) =
        some [mint 1 7 0, mint 1 7 1, mint 1 7 2, mint 2 7 5, mint 2 7 6] := by decide +kernel
  obtain ⟨sys, reached, ids⟩ := Option.map_eq_some_iff.mp performed
  have run := runAll_run (guardedNext_step 7) reached
  exact ⟨sys, run, ids, guardedRun_uniqueIds run ("t", "q")⟩

/-- The first request resolves epoch 1 and reserves after the second, of epoch 2. The counter goes
back to epoch 1, and the third request, of epoch 2 again, starts at zero as the second did. -/
def overtakenActions : List (Action Unit Unit Unit) :=
  [.advanceEpoch ("t", "q") 1, pushOf 1, .advanceEpoch ("t", "q") 2, pushOf 1, .allocate 1,
    .allocate 0, pushOf 1, .allocate 0]

theorem overtaken_request_mints_twice : ∃ sys,
    Run (Step 7) System.initial overtakenActions sys ∧
      sys.history = [.minted ("t", "q") [mint 2 7 0], .minted ("t", "q") [mint 1 7 0],
        .minted ("t", "q") [mint 2 7 0]] ∧
      ¬ UniqueIds sys.history ("t", "q") := by
  have performed : (runAll (next 7) System.initial overtakenActions).map System.history =
      some [.minted ("t", "q") [mint 2 7 0], .minted ("t", "q") [mint 1 7 0],
        .minted ("t", "q") [mint 2 7 0]] := by decide +kernel
  obtain ⟨sys, reached, history⟩ := Option.map_eq_some_iff.mp performed
  refine ⟨sys, runAll_run (next_step 7) reached, history, ?_⟩
  intro unique
  have distinct := unique.distinct
  rw [history] at distinct
  revert distinct
  decide +kernel

end QueueCounters
