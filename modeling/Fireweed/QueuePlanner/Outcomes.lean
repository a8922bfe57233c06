import Fireweed.QueuePlanner.Effects

/-!
# Inversion of updates

All an update can do, with its guards, as one case analysis; and the shape every
effect has whatever the update was.
-/

namespace QueuePlanner

open BTree Checked QueueContract QueueFields Std

theorem require_eq_ok {α : Type} {value : Option α} {reason : Rejection} {a : α} :
    require value reason = .ok a ↔ value = some a := by
  cases value <;> simp [require]

theorem increment_eq_ok {n k : UInt64} {message : String} (ok : increment n message = .ok k) :
    k.toNat = n.toNat + 1 := by
  rw [increment] at ok
  split at ok
  · cases ok
  · next notLast =>
    cases ok
    have bound : n.toNat ≠ 18446744073709551615 := fun last =>
      notLast (UInt64.toNat_inj.mp (by simpa using last))
    have range := n.toNat_lt
    rw [UInt64.toNat_add]
    simp only [UInt64.toNat_one]
    omega

variable {effect : Option Effect} {next : UInt64}

section Inversion

variable [Sha256] (now : Int64) (schema : QueueSchema) (cell : Cell) (sequence : UInt64)

/-- What an accepted update does, and why it was accepted. -/
inductive Outcome : GroupUpdate → Option Effect → UInt64 → Prop
  | claimedCheck {u : ClaimedUpdate} {stored : StoredWork} (found : cell.work = some stored)
      (live : staleCredential stored now u.lease.token = false)
      (expected : stored.record.version = u.expectedVersion) (check : u.disposition = .check) :
      Outcome (.claimed u) none sequence
  | claimedPut {u : ClaimedUpdate} {stored row : StoredWork} {version : UInt64}
      (found : cell.work = some stored)
      (live : staleCredential stored now u.lease.token = false)
      (expected : stored.record.version = u.expectedVersion) (writes : u.disposition ≠ .check)
      (taken : takeVersion cell = .ok version)
      (disposed : dispose now schema ((patchWork stored u.patch).withVersion version)
        u.disposition = .ok (some row)) :
      Outcome (.claimed u) (some ⟨⟨none, u.key⟩, version, .putWork row⟩) sequence
  | claimedDelete {u : ClaimedUpdate} {stored : StoredWork} {version : UInt64}
      (found : cell.work = some stored)
      (live : staleCredential stored now u.lease.token = false)
      (expected : stored.record.version = u.expectedVersion) (delete : u.disposition = .delete)
      (taken : takeVersion cell = .ok version) :
      Outcome (.claimed u) (some ⟨⟨none, u.key⟩, version, .deleteWork⟩) sequence
  | stateCheck {u : StateUpdate}
      (expected : expectState (cell.state.map StateRecord.version) u.expect = .ok ())
      (check : u.change = .check) : Outcome (.state u) none sequence
  | statePut {u : StateUpdate} {fields : Fields} {value : List UInt8} {version : UInt64}
      (expected : expectState (cell.state.map StateRecord.version) u.expect = .ok ())
      (put : u.change = .put fields value) (taken : takeVersion cell = .ok version) :
      Outcome (.state u) (some ⟨⟨some u.collection, u.key⟩, version,
        .putState ⟨u.collection, u.key, version, fields, value⟩⟩) sequence
  | stateDelete {u : StateUpdate} {version : UInt64}
      (expected : expectState (cell.state.map StateRecord.version) u.expect = .ok ())
      (delete : u.change = .delete) (taken : takeVersion cell = .ok version) :
      Outcome (.state u) (some ⟨⟨some u.collection, u.key⟩, version, .deleteState⟩) sequence
  | administrative {u : UnclaimedUpdate} {stored row : StoredWork} {patch : WorkPatch}
      {lifecycle : AdministrativeLifecycle} {leaseGuard : AdministrativeLeaseGuard}
      {changed : Bool} {version : UInt64} (found : cell.work = some stored)
      (expected : expectState (some stored.record.version) u.expect = .ok ())
      (change : u.change = .administrative patch lifecycle leaseGuard)
      (applied : applyAdministrativeUpdate stored patch lifecycle leaseGuard now =
        .ok (changed, row))
      (taken : keptVersion cell stored.record.version changed = .ok version) :
      Outcome (.unclaimed u) (some ⟨⟨none, u.key⟩, version, .putWork (row.withVersion version)⟩)
        sequence
  | patched {u : UnclaimedUpdate} {stored : StoredWork} {patch : WorkPatch} {version : UInt64}
      (found : cell.work = some stored)
      (expected : expectState (some stored.record.version) u.expect = .ok ())
      (change : u.change = .patch patch) (idle : stored.active now = false)
      (taken : takeVersion cell = .ok version) :
      Outcome (.unclaimed u) (some ⟨⟨none, u.key⟩, version,
        .putWork ((patchWork (expireLease stored) patch).withVersion version)⟩) sequence
  | replaced {u : UnclaimedUpdate} {stored : StoredWork} {work : NewWork}
      {version next : UInt64} (found : cell.work = some stored)
      (expected : expectState (some stored.record.version) u.expect = .ok ())
      (change : u.change = .replace work) (idle : stored.active now = false)
      (taken : takeVersion cell = .ok version) (pending : stored.record.lifecycle = .pending)
      (same : work.key = u.key) (advanced : takeSequence sequence = .ok next) :
      Outcome (.unclaimed u)
        (some ⟨⟨none, u.key⟩, version, .putWork (freshWork work version next now)⟩) next
  | deleted {u : UnclaimedUpdate} {stored : StoredWork} {version : UInt64}
      (found : cell.work = some stored)
      (expected : expectState (some stored.record.version) u.expect = .ok ())
      (change : u.change = .delete) (idle : stored.active now = false)
      (taken : takeVersion cell = .ok version) :
      Outcome (.unclaimed u) (some ⟨⟨none, u.key⟩, version, .deleteWork⟩) sequence
  | inserted {w : NewWork} {version next : UInt64} (absent : cell.work = none)
      (taken : takeVersion cell = .ok version) (advanced : takeSequence sequence = .ok next) :
      Outcome (.insert w)
        (some ⟨⟨none, w.key⟩, version, .putWork (freshWork w version next now)⟩) next

variable {now schema cell sequence}

omit [Sha256] in
theorem dispose_none {stored : StoredWork} {wanted : Disposition}
    (ok : dispose now schema stored wanted = .ok none) : wanted = .delete := by
  obtain ⟨disposed, inner, outer⟩ := bind_eq_ok.mp ok
  cases disposed with
  | some row => simp at outer
  | none =>
    cases wanted with
    | delete => rfl
    | retryAt time =>
      simp only [disposition] at inner
      split at inner <;> cases inner
    | retain renew =>
      cases renew with
      | none => cases inner
      | some duration =>
        obtain ⟨_, _, final⟩ := bind_eq_ok.mp inner
        cases final
    | _ => cases inner

theorem claimedEffect_outcome {u : ClaimedUpdate}
    (ok : claimedEffect now schema cell u = .ok effect) :
    Outcome now schema cell sequence (.claimed u) effect sequence := by
  obtain ⟨stored, found, ok⟩ := bind_eq_ok.mp ok
  obtain ⟨live, ok⟩ := check_bind_eq_ok.mp ok
  obtain ⟨expected, ok⟩ := check_bind_eq_ok.mp ok
  rw [require_eq_ok] at found
  rw [rejectIf_eq_ok] at live
  have expected : stored.record.version = u.expectedVersion := by simpa using expected
  split at ok
  · next check =>
    cases ok
    exact .claimedCheck found live expected check
  · next writes =>
    obtain ⟨version, taken, ok⟩ := bind_eq_ok.mp ok
    obtain ⟨disposed, done, ok⟩ := bind_eq_ok.mp ok
    cases ok
    cases disposed with
    | none => exact .claimedDelete found live expected (dispose_none done) taken
    | some row => exact .claimedPut found live expected writes taken done

theorem stateEffect_outcome {u : StateUpdate} (ok : stateEffect cell u = .ok effect) :
    Outcome now schema cell sequence (.state u) effect sequence := by
  obtain ⟨expected, ok⟩ := check_bind_eq_ok.mp ok
  cases change : u.change with
  | check =>
    rw [change] at ok
    cases ok
    exact .stateCheck expected change
  | put fields value =>
    rw [change] at ok
    obtain ⟨version, taken, ok⟩ := bind_eq_ok.mp ok
    cases ok
    exact .statePut expected change taken
  | delete =>
    rw [change] at ok
    obtain ⟨version, taken, ok⟩ := bind_eq_ok.mp ok
    cases ok
    exact .stateDelete expected change taken

theorem unclaimedEffect_outcome {u : UnclaimedUpdate} {effect : Effect}
    (ok : unclaimedEffect now cell sequence u = .ok (effect, next)) :
    Outcome now schema cell sequence (.unclaimed u) (some effect) next := by
  obtain ⟨stored, found, ok⟩ := bind_eq_ok.mp ok
  obtain ⟨expected, ok⟩ := check_bind_eq_ok.mp ok
  rw [require_eq_ok] at found
  cases change : u.change with
  | patch p =>
    rw [change] at ok
    obtain ⟨idle, ok⟩ := check_bind_eq_ok.mp ok
    obtain ⟨version, taken, ok⟩ := bind_eq_ok.mp ok
    cases ok
    exact .patched found expected change (rejectIf_eq_ok.mp idle) taken
  | administrative p lifecycle leaseGuard =>
    rw [change] at ok
    obtain ⟨⟨changed, row⟩, applied, ok⟩ := bind_eq_ok.mp ok
    obtain ⟨version, taken, ok⟩ := bind_eq_ok.mp ok
    cases ok
    exact .administrative found expected change applied taken
  | replace work =>
    rw [change] at ok
    obtain ⟨idle, ok⟩ := check_bind_eq_ok.mp ok
    obtain ⟨version, taken, ok⟩ := bind_eq_ok.mp ok
    cases pending : stored.record.lifecycle with
    | pending =>
      rw [pending] at ok
      obtain ⟨same, ok⟩ := check_bind_eq_ok.mp ok
      obtain ⟨advanced, counted, ok⟩ := bind_eq_ok.mp ok
      cases ok
      exact .replaced found expected change (rejectIf_eq_ok.mp idle) taken pending
        (by simpa using same) counted
    | _ =>
      rw [pending] at ok
      cases ok
  | delete =>
    rw [change] at ok
    obtain ⟨idle, ok⟩ := check_bind_eq_ok.mp ok
    obtain ⟨version, taken, ok⟩ := bind_eq_ok.mp ok
    cases ok
    exact .deleted found expected change (rejectIf_eq_ok.mp idle) taken

theorem insertEffect_outcome {w : NewWork} {effect : Effect}
    (ok : insertEffect now cell sequence w = .ok (effect, next)) :
    Outcome now schema cell sequence (.insert w) (some effect) next := by
  obtain ⟨absent, ok⟩ := check_bind_eq_ok.mp ok
  obtain ⟨version, taken, ok⟩ := bind_eq_ok.mp ok
  obtain ⟨advanced, counted, ok⟩ := bind_eq_ok.mp ok
  cases ok
  exact .inserted (by simpa using absent) taken counted

/-- The inversion lemma of updates. -/
theorem effect_outcome {u : GroupUpdate}
    (ok : u.effect now schema cell sequence = .ok (effect, next)) :
    Outcome now schema cell sequence u effect next := by
  cases u with
  | claimed u =>
    obtain ⟨e, inner, same⟩ := map_eq_ok.mp ok
    cases same
    exact claimedEffect_outcome inner
  | state u =>
    obtain ⟨e, inner, same⟩ := map_eq_ok.mp ok
    cases same
    exact stateEffect_outcome inner
  | unclaimed u =>
    obtain ⟨⟨e, after⟩, inner, same⟩ := map_eq_ok.mp ok
    cases same
    exact unclaimedEffect_outcome inner
  | insert w =>
    obtain ⟨⟨e, after⟩, inner, same⟩ := map_eq_ok.mp ok
    cases same
    exact insertEffect_outcome inner

end Inversion

/-! ## The parts of a row an update rewrites -/

/-- What a row holds besides its schedule and lease. -/
structure RowCore where
  key : String
  fields : Fields
  body : List UInt8
  bodyLoaded : Bool
  coverage : FieldCoverage
  version : UInt64
  insertionSequence : UInt64

def StoredWork.core (stored : StoredWork) : RowCore where
  key := stored.key
  fields := stored.fields
  body := stored.record.work.body
  bodyLoaded := stored.bodyLoaded
  coverage := stored.fieldCoverage
  version := stored.record.version
  insertionSequence := stored.record.insertionSequence

/-- A lease is held by a leased row and by no other. -/
structure LeaseCoherent (stored : StoredWork) : Prop where
  expiry : stored.record.lifecycle = .leased ↔ stored.record.leaseExpiresAt.isSome
  hash : stored.record.lifecycle = .leased ↔ stored.leaseHash.isSome

@[simp] theorem expireLease_core (stored : StoredWork) : (expireLease stored).core =
  stored.core := by
  rw [expireLease]
  split <;> rfl

@[simp] theorem withVersion_core (stored : StoredWork) (version : UInt64) :
    (stored.withVersion version).core = { stored.core with version := version } :=
  rfl

theorem patchWork_core {a b : StoredWork} (same : a.core = b.core) (patch : WorkPatch) :
    (patchWork a patch).core = (patchWork b patch).core := by
  simp only [StoredWork.core, StoredWork.key, StoredWork.fields, RowCore.mk.injEq] at same
  simp [StoredWork.core, StoredWork.key, StoredWork.fields, patchWork, same]

section

variable {now : Int64} {schema : QueueSchema} {stored row : StoredWork} {wanted : Disposition}

theorem disposition_core (ok : disposition now schema stored wanted = .ok (some row)) :
    row.core = stored.core ∧ row.leaseHash = stored.leaseHash ∧
      (row.record.lifecycle = .leased → row.record.lifecycle = stored.record.lifecycle ∧
        (stored.record.leaseExpiresAt.isSome → row.record.leaseExpiresAt.isSome)) := by
  cases wanted with
  | retryAt time =>
    simp only [disposition] at ok
    split at ok <;> cases ok <;> exact ⟨rfl, rfl, by simp⟩
  | retain renew =>
    cases renew with
    | none =>
      cases ok
      exact ⟨rfl, rfl, by simp⟩
    | some duration =>
      obtain ⟨expiry, _, final⟩ := bind_eq_ok.mp ok
      cases final
      exact ⟨rfl, rfl, by simp⟩
  | delete => cases ok
  | check =>
    cases ok
    exact ⟨rfl, rfl, by simp⟩
  | _ =>
    cases ok
    exact ⟨rfl, rfl, by simp⟩

theorem dispose_some (ok : dispose now schema stored wanted = .ok (some row)) :
    ∃ disposed, disposition now schema stored wanted = .ok (some disposed) ∧
      row = if disposed.record.lifecycle ≠ .leased then clearLease disposed else disposed := by
  obtain ⟨disposed, inner, outer⟩ := bind_eq_ok.mp ok
  cases disposed with
  | none => simp at outer
  | some disposed =>
    simp only [Option.map_some, Except.ok.injEq, Option.some.injEq] at outer
    exact ⟨disposed, inner, outer.symm⟩

theorem dispose_core (ok : dispose now schema stored wanted = .ok (some row)) :
    row.core = stored.core := by
  obtain ⟨disposed, inner, rfl⟩ := dispose_some ok
  rw [← (disposition_core inner).1]
  split <;> rfl

end

/-- What an accepted administrative change leaves. -/
structure Administered (stored : StoredWork) (patch : WorkPatch)
    (lifecycle : AdministrativeLifecycle) (leaseGuard : AdministrativeLeaseGuard) (now : Int64)
    (changed : Bool) (row : StoredWork) : Prop where
  idle : leaseGuard = .rejectActive → stored.active now = false
  held : leaseGuard = .requireActive → stored.active now = true
  open_ : (stored.record.lifecycle = .completed ∨ stored.record.lifecycle = .failed) →
    lifecycle ≠ .completed ∧ lifecycle ≠ .failed
  core : row.core = (patchWork stored patch).core
  target : row.record.lifecycle = desiredLifecycle stored.record.lifecycle lifecycle leaseGuard
  cleared : row.record.lifecycle ≠ .leased ∨ leaseGuard = .invalidateActive →
    row.record.leaseExpiresAt = none ∧ row.leaseHash = none
  kept : ¬(row.record.lifecycle ≠ .leased ∨ leaseGuard = .invalidateActive) →
    row.record.leaseExpiresAt = stored.record.leaseExpiresAt ∧ row.leaseHash = stored.leaseHash
  attempts : row.record.attempts = stored.record.attempts
  difference : changed = (!row.record.eq stored.record || row.leaseHash != stored.leaseHash)

theorem applyAdministrativeUpdate_spec {stored row : StoredWork} {patch : WorkPatch}
    {lifecycle : AdministrativeLifecycle} {leaseGuard : AdministrativeLeaseGuard} {now : Int64}
    {changed : Bool}
    (ok : applyAdministrativeUpdate stored patch lifecycle leaseGuard now = .ok (changed, row)) :
    Administered stored patch lifecycle leaseGuard now changed row := by
  obtain ⟨guarded, ok⟩ := check_bind_eq_ok.mp ok
  obtain ⟨terminal, ok⟩ := check_bind_eq_ok.mp ok
  obtain ⟨-, ok⟩ := check_bind_eq_ok.mp ok
  simp only [Except.ok.injEq, Prod.mk.injEq] at ok
  obtain ⟨difference, rfl⟩ := ok
  refine ⟨?_, ?_, ?_, ?_, ?_, ?_, ?_, ?_, difference.symm⟩
  · rintro rfl
    exact rejectIf_eq_ok.mp guarded
  · rintro rfl
    simpa using rejectIf_eq_ok.mp guarded
  · intro finished
    simp only [rejectIf_eq_ok, Bool.and_eq_false_iff, decide_eq_false_iff_not] at terminal
    exact not_or.mp (terminal.resolve_left (not_not_intro finished))
  all_goals
    generalize desiredLifecycle stored.record.lifecycle lifecycle leaseGuard = desired
    split_ifs <;> simp_all [StoredWork.core, StoredWork.key, StoredWork.fields, clearLease,
      patchWork]

/-! ## The shape of effects -/

/-- The image an effect leaves names the record and version of the effect. -/
def Effect.Shaped (effect : Effect) : Prop :=
  match effect.change with
  | .putWork row => effect.identity = ⟨none, row.key⟩ ∧ row.record.version = effect.version
  | .deleteWork => effect.identity.collection = none
  | .putState row =>
    effect.identity = ⟨some row.collection, row.key⟩ ∧ row.version = effect.version
  | .deleteState => effect.identity.collection.isSome

/-- The row of a cell is stored under its own key. -/
def Cell.Keyed (cell : Cell) (id : RecordIdentity) : Prop :=
  ∀ stored, cell.work = some stored → stored.key = id.key

open GroupUpdate

section Shape

variable [Sha256] {now : Int64} {schema : QueueSchema} {cell : Cell} {sequence next : UInt64}
variable {u : GroupUpdate}

theorem Outcome.identity_eq {effect : Effect}
    (outcome : Outcome now schema cell sequence u (some effect) next) :
    effect.identity = u.identity := by
  cases outcome <;> rfl

theorem Outcome.shaped {effect : Effect}
    (outcome : Outcome now schema cell sequence u (some effect) next)
    (keyed : cell.Keyed u.identity) : effect.Shaped := by
  cases outcome with
  | claimedPut found _ _ _ _ disposed =>
    have core := dispose_core disposed
    have key := congrArg RowCore.key core
    have version := congrArg RowCore.version core
    have same := keyed _ found
    exact ⟨by simp_all [StoredWork.core, StoredWork.key, patchWork, StoredWork.withVersion,
      identity], version⟩
  | claimedDelete => rfl
  | statePut => exact ⟨rfl, rfl⟩
  | stateDelete => rfl
  | administrative found _ _ applied _ =>
    have key := congrArg RowCore.key (applyAdministrativeUpdate_spec applied).core
    have same := keyed _ found
    exact ⟨by simp_all [StoredWork.core, StoredWork.key, patchWork, StoredWork.withVersion,
      identity], rfl⟩
  | @patched _ stored patch version found _ _ _ _ =>
    have key : (patchWork (expireLease stored) patch).key = stored.key := by
      rw [expireLease]
      split <;> rfl
    have same := keyed _ found
    exact ⟨by simp_all [StoredWork.key, StoredWork.withVersion, identity], rfl⟩
  | replaced _ _ _ _ _ _ same _ =>
    exact ⟨by simp [freshWork, StoredWork.key, same], rfl⟩
  | deleted => rfl
  | inserted => exact ⟨rfl, rfl⟩

/-- Only a check leaves no effect. -/
def GroupUpdate.writes : GroupUpdate → Bool
  | .claimed u => u.disposition != .check
  | .state u => u.change != .check
  | .unclaimed _ => true
  | .insert _ => true

theorem Outcome.writes_iff (outcome : Outcome now schema cell sequence u effect next) :
    effect.isSome = u.writes := by
  cases outcome <;> simp_all [writes]

end Shape

/-! ## Payloads -/

def GroupUpdate.patch? : GroupUpdate → Option WorkPatch
  | .claimed u => some u.patch
  | .unclaimed u =>
    match u.change with
    | .patch p => some p
    | .administrative p _ _ => some p
    | _ => none
  | _ => none

def GroupUpdate.whole? : GroupUpdate → Option NewWork
  | .insert w => some w
  | .unclaimed u =>
    match u.change with
    | .replace w => some w
    | _ => none
  | _ => none

/-- A row an update writes is its old row patched, or fresh work. -/
inductive Payload (now : Int64) (cell : Cell) (u : GroupUpdate) (row : StoredWork) : Prop
  | edited {stored : StoredWork} {patch : WorkPatch} (found : cell.work = some stored)
      (requested : u.patch? = some patch)
      (core : row.core = { (patchWork stored patch).core with version := row.record.version })
  | whole {work : NewWork} {sequence : UInt64} (requested : u.whole? = some work)
      (fresh : row = freshWork work row.record.version sequence now)

theorem Outcome.payload [Sha256] {now : Int64} {schema : QueueSchema} {cell : Cell}
    {sequence : UInt64} {u : GroupUpdate} {effect : Effect} {row : StoredWork}
    (outcome : Outcome now schema cell sequence u (some effect) next)
    (written : effect.workRow? = some row) : Payload now cell u row := by
  cases outcome with
  | claimedPut found _ _ _ _ disposed =>
    cases written
    have core := dispose_core disposed
    have version : row.record.version = _ := congrArg RowCore.version core
    refine .edited found rfl (core.trans ?_)
    rw [version]
    rfl
  | claimedDelete => cases written
  | statePut => cases written
  | stateDelete => cases written
  | @administrative _ _ _ patch _ _ _ _ found _ change applied _ =>
    cases written
    refine @Payload.edited _ _ _ _ _ patch found (by simp [patch?, change]) ?_
    rw [withVersion_core, (applyAdministrativeUpdate_spec applied).core]
    rfl
  | @patched _ stored patch version found _ change _ _ =>
    cases written
    refine @Payload.edited _ _ _ _ _ patch found (by simp [patch?, change]) ?_
    rw [withVersion_core, patchWork_core (expireLease_core stored)]
    rfl
  | replaced _ _ change _ _ _ _ _ =>
    cases written
    exact .whole (by simp [whole?, change]) rfl
  | deleted => cases written
  | inserted =>
    cases written
    exact .whole rfl rfl

end QueuePlanner
