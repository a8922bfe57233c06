import Fireweed.QueuePlanner.Snapshot

/-!
# What a publication knows of the image before it

A frame is written in two passes over the versions of a delta. Each pass needs, for
every version, the high-water and the row that the image had before. Instead of
looking them up it moves one cursor over the high-waters and one over the state rows,
since the versions come in ascending order.
-/

namespace QueuePublication

open BTree QueueContract QueuePlanner Std

structure Prior where
  highwater : UInt64
  work : Option StoredWork
  state : Option StateRecord
deriving DecidableEq

def Prior.version (self : Prior) : Option UInt64 :=
  (self.work.map fun work => work.record.version).or (self.state.map StateRecord.version)

/-- Two cursors, as the entries that they have not passed. -/
structure InitialAuthority where
  versions : List (RecordIdentity × UInt64)
  state : List ((String × String) × StateRecord)
  work : BTreeMap String StoredWork

namespace InitialAuthority

def new (before : RecordSnapshot) : InitialAuthority :=
  ⟨before.versions.toList, before.state.toList, before.work⟩

/-- The cursor over the state rows stays where it is for work. -/
def next (self : InitialAuthority) (collection : Option String) (key : String) :
    Prior × InitialAuthority :=
  let id : RecordIdentity := ⟨collection, key⟩
  let versions := seek id self.versions
  let highwater := (peekAt id versions).getD 0
  match collection with
  | some c =>
    let state := seek (c, key) self.state
    (⟨highwater, none, peekAt (c, key) state⟩, ⟨versions, state, self.work⟩)
  | none => (⟨highwater, self.work[key]?, none⟩, ⟨versions, self.state, self.work⟩)

/-- Successive calls of `next`. -/
def priors (self : InitialAuthority) : List RecordIdentity → List Prior
  | [] => []
  | id :: rest =>
    let (prior, self) := self.next id.collection id.key
    prior :: self.priors rest

variable {m : Type → Type} [Monad m] {α : Type}

/-- A pass over versions, which hands on what the cursors find. -/
def visit (self : InitialAuthority) (use : RecordVersion → Prior → α → m α) :
    List RecordVersion → α → m α
  | [], out => pure out
  | v :: rest, out => do
    let (prior, self) := self.next v.collection v.key
    let out ← use v prior out
    self.visit use rest out

end InitialAuthority

/-- The writers of a frame that do not read the image before it. -/
structure FrameWriter (σ ε : Type) where
  header : UInt64 → UInt64 → UInt64 → σ → Except ε σ
  mutationHeader : RecordVersion → Option UInt64 → UInt64 → σ → Except ε σ
  mutationValue : RecordVersion → σ → Except ε σ
  receipts : σ → Except ε σ

section Frames

variable {σ ε : Type} (writer : FrameWriter σ ε)

def countMutation (v : RecordVersion) (prior : Prior) (count : Nat) : Id Nat :=
  if v.version > prior.highwater then count + 1 else count

def writeDeltaMutation (v : RecordVersion) (prior : Prior) (s : σ) : Except ε σ := do
  let s ← writer.mutationHeader v prior.version prior.highwater s
  writer.mutationValue v s

def writeMutation (v : RecordVersion) (prior : Prior) (s : σ) : Except ε σ :=
  if v.version = prior.highwater then .ok s else writeDeltaMutation writer v prior s

/-- Both passes start at the first entries. -/
def writeFrame (before : RecordSnapshot) (delta : CommitDelta) (s : σ) : Except ε σ := do
  let mutations := ((InitialAuthority.new before).visit countMutation delta.versions 0).run
  let s ← writer.header before.nextSequence delta.nextSequence (UInt64.ofNat mutations) s
  let s ← (InitialAuthority.new before).visit (writeMutation writer) delta.versions s
  writer.receipts s

/-! ## Direct lookups -/

def priorOf (before : RecordSnapshot) (id : RecordIdentity) : Prior where
  highwater := before.versions[id]?.getD 0
  work := if id.collection.isNone then before.work[id.key]? else none
  state := id.collection.bind fun collection => before.state[(collection, id.key)]?

/-- The frame with a lookup for every version. -/
def writeFrameByLookup (before : RecordSnapshot) (delta : CommitDelta) (s : σ) :
    Except ε σ := do
  let mutations := (delta.versions.filter fun v =>
    decide (v.version > (priorOf before (versionIdentity v)).highwater)).length
  let s ← writer.header before.nextSequence delta.nextSequence (UInt64.ofNat mutations) s
  let s ← delta.versions.foldlM
    (fun s v => writeMutation writer v (priorOf before (versionIdentity v)) s) s
  writer.receipts s

end Frames

theorem version_priorOf (before : RecordSnapshot) (id : RecordIdentity) :
    (priorOf before id).version = match id.collection with
      | some collection => before.state[(collection, id.key)]?.map StateRecord.version
      | none => before.work[id.key]?.map fun work => work.record.version := by
  obtain ⟨collection, key⟩ := id
  cases collection with
  | some collection => rfl
  | none =>
    rw [Prior.version]
    exact Option.or_none

/-! ## The cursors are lookups -/

namespace InitialAuthority

/-- At an identity the cursors are as good as new. -/
structure Ready (before : RecordSnapshot) (authority : InitialAuthority)
    (id : RecordIdentity) : Prop where
  versions : seek id authority.versions = seek id before.versions.toList
  state : ∀ c, id.collection = some c →
    seek (c, id.key) authority.state = seek (c, id.key) before.state.toList
  work : authority.work = before.work

variable {before : RecordSnapshot} {authority : InitialAuthority} {id later : RecordIdentity}

theorem ready_new (before : RecordSnapshot) (id : RecordIdentity) : Ready before (new before) id :=
  ⟨rfl, fun _ _ => rfl, rfl⟩

theorem Ready.prior (ready : Ready before authority id) :
    (authority.next id.collection id.key).1 = priorOf before id := by
  obtain ⟨collection, key⟩ := id
  cases collection with
  | some c =>
    have row := ready.state c rfl
    simp only [next, priorOf, ready.versions, row, peekAt_seek]
    rfl
  | none =>
    simp only [next, priorOf, ready.versions, ready.work, peekAt_seek]
    rfl

/-- State identities are ordered as the keys of the state rows, so that a step forward passes
nothing that a later identity needs. -/
theorem Ready.next (ready : Ready before authority later) (order : compare id later = .lt) :
    Ready before (authority.next id.collection id.key).2 later := by
  obtain ⟨collection, key⟩ := id
  cases collection with
  | some c =>
    refine ⟨(seek_seek order _).trans ready.versions, fun d held => ?_, ready.work⟩
    obtain ⟨_, key'⟩ := later
    cases held
    have rows : compare (c, key) (d, key') = .lt := order
    exact (seek_seek rows _).trans (ready.state d rfl)
  | none => exact ⟨(seek_seek order _).trans ready.versions, ready.state, ready.work⟩

theorem priors_eq {ids : List RecordIdentity}
    (ascending : ids.Pairwise fun a b => compare a b = .lt)
    (ready : ∀ id ∈ ids, Ready before authority id) :
    authority.priors ids = ids.map (priorOf before) := by
  induction ids generalizing authority with
  | nil => rfl
  | cons id ids ih =>
    obtain ⟨after, ascending⟩ := List.pairwise_cons.mp ascending
    obtain ⟨here, others⟩ := List.forall_mem_cons.mp ready
    have moved : ∀ later ∈ ids, Ready before (authority.next id.collection id.key).2 later :=
      fun later member => (others later member).next (after later member)
    rw [List.map_cons, ← here.prior, ← ih ascending moved]
    rfl

/-- A pass is a fold with lookups. -/
theorem visit_eq {m : Type → Type} [Monad m] {α : Type} (use : RecordVersion → Prior → α → m α)
    {versions : List RecordVersion}
    (ascending : (versions.map versionIdentity).Pairwise fun a b => compare a b = .lt)
    (ready : ∀ id ∈ versions.map versionIdentity, Ready before authority id) (out : α) :
    authority.visit use versions out =
      versions.foldlM (fun out v => use v (priorOf before (versionIdentity v)) out) out := by
  induction versions generalizing authority out with
  | nil => rfl
  | cons v versions ih =>
    obtain ⟨after, ascending⟩ := List.pairwise_cons.mp ascending
    obtain ⟨here, others⟩ := List.forall_mem_cons.mp ready
    have moved : ∀ later ∈ versions.map versionIdentity,
        Ready before (authority.next v.collection v.key).2 later :=
      fun later member => (others later member).next (after later member)
    rw [List.foldlM_cons, ← here.prior]
    exact congrArg (use v _ out >>= ·) (funext fun out => ih ascending moved out)

end InitialAuthority

theorem countMutation_foldlM (prior : RecordVersion → Prior) (versions : List RecordVersion)
    (count : Nat) :
    (versions.foldlM (fun count v => countMutation v (prior v) count) count).run =
      count + (versions.filter fun v => decide (v.version > (prior v).highwater)).length := by
  induction versions generalizing count with
  | nil => rfl
  | cons v versions ih =>
    rw [List.foldlM_cons, Id.run_bind, ih, countMutation, List.filter_cons]
    by_cases advances : v.version > (prior v).highwater
    · rw [if_pos advances, if_pos (decide_eq_true advances), List.length_cons, Id.run]
      omega
    · rw [if_neg advances, if_neg (by simpa using advances), Id.run]

/-- The cursors of a publication are lookups: over ascending identities the calls return the
high-waters and rows of the image, and a frame, in both of its passes, is the one with lookups. -/
theorem authority_is_lookup (before : RecordSnapshot) {ids : List RecordIdentity}
    (ascending : ids.Pairwise fun a b => compare a b = .lt) :
    (InitialAuthority.new before).priors ids = ids.map (priorOf before) ∧
    (∀ id ∈ ids, (priorOf before id).highwater = before.versions[id]?.getD 0 ∧
      (priorOf before id).version = match id.collection with
        | some collection => before.state[(collection, id.key)]?.map StateRecord.version
        | none => before.work[id.key]?.map fun work => work.record.version) ∧
    ∀ {σ ε : Type} (writer : FrameWriter σ ε) (delta : CommitDelta) (s : σ),
      delta.versions.map versionIdentity = ids →
        writeFrame writer before delta s = writeFrameByLookup writer before delta s := by
  refine ⟨InitialAuthority.priors_eq ascending fun id _ => InitialAuthority.ready_new before id,
    fun id _ => ⟨rfl, version_priorOf before id⟩, ?_⟩
  rintro σ ε writer delta s rfl
  have ready := fun id (_ : id ∈ delta.versions.map versionIdentity) =>
    InitialAuthority.ready_new before id
  rw [writeFrame, writeFrameByLookup, InitialAuthority.visit_eq countMutation ascending ready,
    countMutation_foldlM, Nat.zero_add]
  refine congrArg (writer.header _ _ _ s >>= ·) (funext fun s => ?_)
  rw [InitialAuthority.visit_eq (writeMutation writer) ascending ready]

/-- A state row between two work items that the image does not have. -/
theorem authority_is_lookup_row :
    let row : StateRecord := ⟨"c", "k", 3, ∅, []⟩
    let before : RecordSnapshot := { RecordSnapshot.empty with
      state := .ofList [(("c", "k"), row)] compare
      versions := .ofList [(⟨none, "b"⟩, 2), (⟨some "c", "k"⟩, 3)] compare }
    (InitialAuthority.new before).priors [⟨none, "a"⟩, ⟨none, "b"⟩, ⟨some "c", "k"⟩] =
      [⟨0, none, none⟩, ⟨2, none, none⟩, ⟨3, none, some row⟩] := by
  intro row before
  rw [(authority_is_lookup before (by decide +kernel)).1]
  decide +kernel

end QueuePublication
