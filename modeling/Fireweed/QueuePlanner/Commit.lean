import Fireweed.QueuePlanner.Valid

/-!
# Committed groups

Planning a group has three outcomes: an error, a rejection, or a commit. A commit
is given by the effects of its updates; its image is read off the delta record by
record.
-/

namespace QueuePlanner

open BTree Checked List QueueContract QueueFields Std

/-! ## Lists of effects -/

variable {effects : List Effect} {sequence : UInt64} {u : GroupUpdate} {effect : Effect}
  {id : String × String} {key : String} {row : StoredWork} {version : RecordVersion}
  {group : CommitGroup}

open Effect

section Effects

variable [Sha256] {now : Int64} {schema : QueueSchema} {snapshot : RecordSnapshot}

theorem Outcome.sequence_le {cell : Cell} {next : UInt64} {effect : Option Effect}
    (outcome : Outcome now schema cell sequence u effect next) : sequence ≤ next := by
  cases outcome with
  | replaced _ _ _ _ _ _ _ advanced =>
    rw [UInt64.le_iff_toNat_le, increment_eq_ok advanced]
    exact Nat.le_succ _
  | inserted _ _ advanced =>
    rw [UInt64.le_iff_toNat_le, increment_eq_ok advanced]
    exact Nat.le_succ _
  | _ => exact UInt64.le_refl _

variable {last : UInt64} {us : List GroupUpdate}

theorem planEffects_cons {rest : List GroupUpdate}
    (ok : planEffects now schema snapshot sequence (u :: rest) = .ok (effects, last)) :
    ∃ effect next later, Outcome now schema (snapshot.cell u.identity) sequence u effect next ∧
      planEffects now schema snapshot next rest = .ok (later, last) ∧
      effects = effect.toList ++ later := by
  rw [planEffects] at ok
  obtain ⟨⟨effect, next⟩, here, ok⟩ := bind_eq_ok.mp ok
  obtain ⟨⟨later, last'⟩, tail, ok⟩ := bind_eq_ok.mp ok
  cases ok
  exact ⟨effect, next, later, effect_outcome here, tail, rfl⟩

/-- The effects of a group depend only on the cells it addresses. -/
theorem planEffects_congr {other : RecordSnapshot}
    (same : ∀ u ∈ us, snapshot.cell u.identity = other.cell u.identity) (sequence : UInt64) :
    planEffects now schema snapshot sequence us = planEffects now schema other sequence us := by
  induction us generalizing sequence with
  | nil => rfl
  | cons u rest ih =>
    have later := ih fun v member => same v (mem_cons_of_mem u member)
    simp only [planEffects, same u mem_cons_self, later]

/-- Every effect of a group comes from one of its updates, between the first and the last
sequence. -/
theorem planEffects_mem (ok : planEffects now schema snapshot sequence us = .ok (effects, last)) :
    sequence ≤ last ∧ ∀ effect ∈ effects, ∃ u ∈ us, ∃ before after,
      Outcome now schema (snapshot.cell u.identity) before u (some effect) after ∧
        sequence ≤ before ∧ after ≤ last := by
  induction us generalizing sequence effects with
  | nil =>
    cases ok
    exact ⟨UInt64.le_refl _, by simp⟩
  | cons u rest ih =>
    obtain ⟨effect, next, later, outcome, tail, rfl⟩ := planEffects_cons ok
    obtain ⟨bound, members⟩ := ih tail
    have advance := outcome.sequence_le
    refine ⟨UInt64.le_trans advance bound, ?_⟩
    intro e member
    rcases mem_append.mp member with here | there
    · obtain rfl := Option.mem_toList.mp here
      exact ⟨u, mem_cons_self, sequence, next, outcome, UInt64.le_refl _, bound⟩
    · obtain ⟨v, among, before, after, found, low, high⟩ := members e there
      exact ⟨v, mem_cons_of_mem u among, before, after, found,
        UInt64.le_trans advance low, high⟩

/-- The effects name the updates that are not checks, in order. -/
theorem planEffects_identities
    (ok : planEffects now schema snapshot sequence us = .ok (effects, last)) :
    effects.map identity = (us.filter GroupUpdate.writes).map GroupUpdate.identity := by
  induction us generalizing sequence effects with
  | nil =>
    cases ok
    rfl
  | cons u rest ih =>
    obtain ⟨effect, next, later, outcome, tail, rfl⟩ := planEffects_cons ok
    have writes := outcome.writes_iff
    rw [List.map_append, ih tail]
    cases effect with
    | none => rw [filter_cons_of_neg (by simp [← writes])]; rfl
    | some e =>
      rw [filter_cons_of_pos (by simp [← writes])]
      simp [outcome.identity_eq]

end Effects

theorem modifiedRecords_eq (group : CommitGroup) :
    group.modifiedRecords =
      ((updates group).filter GroupUpdate.writes).map fun u => u.identity.pair := by
  simp only [updates, CommitGroup.modifiedRecords, List.filter_append, List.map_append,
    List.filter_map, List.map_map]
  congr 1
  · congr 1
    exact congrArg _ (by simp [Function.comp_def, GroupUpdate.writes])
  · exact congrArg _ (by simp [Function.comp_def, GroupUpdate.writes])

/-! ## Shaped deltas -/

/-- A delta lists each record once, as a row or as a deletion, under the version it gets. -/
structure CommitDelta.Shaped (delta : CommitDelta) : Prop where
  work : (delta.work.map StoredWork.key).Nodup
  state : (delta.state.map fun row => (row.collection, row.key)).Nodup
  versions : (delta.versions.map versionIdentity).Nodup
  deletedWork : ∀ row ∈ delta.work, row.key ∉ delta.deletedWork
  deletedState : ∀ row ∈ delta.state, (row.collection, row.key) ∉ delta.deletedState
  workListed : ∀ key, (⟨none, key⟩ : RecordIdentity) ∈ delta.versions.map versionIdentity ↔
    key ∈ delta.work.map StoredWork.key ∨ key ∈ delta.deletedWork
  stateListed : ∀ id : String × String,
    (⟨some id.1, id.2⟩ : RecordIdentity) ∈ delta.versions.map versionIdentity ↔
      id ∈ delta.state.map (fun row => (row.collection, row.key)) ∨ id ∈ delta.deletedState
  workVersion : ∀ row ∈ delta.work, ⟨none, row.key, row.record.version⟩ ∈ delta.versions
  stateVersion : ∀ row ∈ delta.state,
    ⟨some row.collection, row.key, row.version⟩ ∈ delta.versions

variable {schema : QueueSchema}

section Shaped

theorem Effect.workRow?_eq_some (shaped : effect.Shaped) (found : effect.workRow? = some row) :
    effect.identity = ⟨none, row.key⟩ ∧ row.record.version = effect.version := by
  obtain ⟨id, version, change⟩ := effect
  cases change with
  | putWork =>
    cases found
    exact shaped
  | _ => cases found

theorem Effect.stateRow?_eq_some {row : StateRecord} (shaped : effect.Shaped)
    (found : effect.stateRow? = some row) :
    effect.identity = ⟨some row.collection, row.key⟩ ∧ row.version = effect.version := by
  obtain ⟨id, version, change⟩ := effect
  cases change with
  | putState =>
    cases found
    exact shaped
  | _ => cases found

theorem Effect.deletedWork?_eq_some (shaped : effect.Shaped)
    (found : effect.deletedWork? = some key) : effect.identity = ⟨none, key⟩ := by
  obtain ⟨⟨collection, k⟩, version, change⟩ := effect
  cases change with
  | deleteWork =>
    cases found
    cases shaped
    rfl
  | _ => cases found

theorem Effect.deletedState?_eq_some (found : effect.deletedState? = some id) :
    effect.identity = ⟨some id.1, id.2⟩ := by
  obtain ⟨⟨collection, k⟩, version, change⟩ := effect
  cases change <;> cases collection <;> cases found
  rfl

theorem Effect.work_cases (shaped : effect.Shaped) (id : effect.identity = ⟨none, key⟩) :
    (∃ row, effect.workRow? = some row ∧ row.key = key) ∨ effect.deletedWork? = some key := by
  obtain ⟨_, version, change⟩ := effect
  cases id
  cases change with
  | putWork row =>
    have same := shaped.1
    cases same
    exact .inl ⟨row, rfl, rfl⟩
  | deleteWork => exact .inr rfl
  | putState row =>
    have same := shaped.1
    cases same
  | deleteState => cases shaped

theorem Effect.state_cases (shaped : effect.Shaped) (same : effect.identity = ⟨some id.1, id.2⟩) :
    (∃ row, effect.stateRow? = some row ∧ (row.collection, row.key) = id) ∨
      effect.deletedState? = some id := by
  obtain ⟨_, version, change⟩ := effect
  cases same
  cases change with
  | putState row =>
    have same := shaped.1
    simp only [RecordIdentity.mk.injEq, Option.some.injEq] at same
    exact .inl ⟨row, rfl, by rw [← same.1, ← same.2]⟩
  | deleteState => exact .inr rfl
  | putWork row =>
    have same := shaped.1
    cases same
  | deleteWork => cases shaped

variable {effects : List Effect} (distinct : (effects.map Effect.identity).Nodup)
  (shaped : ∀ effect ∈ effects, effect.Shaped)

include distinct in
/-- Effects on one kind of record: its rows and its deletions are different records, and they are
the records of the kind. -/
theorem rows_of_effects {ρ κ : Type} {row? : Effect → Option ρ} {gone? : Effect → Option κ}
    (key : ρ → κ) (name : κ → RecordIdentity)
    (put : ∀ e ∈ effects, ∀ row, row? e = some row → e.identity = name (key row))
    (deleted : ∀ e ∈ effects, ∀ k, gone? e = some k → e.identity = name k)
    (either : ∀ e ∈ effects, ∀ k, e.identity = name k →
      (∃ row, row? e = some row ∧ key row = k) ∨ gone? e = some k)
    (never : ∀ e row k, row? e = some row → gone? e ≠ some k) :
    ((effects.filterMap row?).map key).Nodup ∧
    (∀ row ∈ effects.filterMap row?, key row ∉ effects.filterMap gone?) ∧
    ∀ k, name k ∈ effects.map identity ↔
      k ∈ (effects.filterMap row?).map key ∨ k ∈ effects.filterMap gone? := by
  refine ⟨?_, fun row member gone => ?_, fun k => ⟨fun listed => ?_, ?_⟩⟩
  · rw [Nodup, pairwise_map] at distinct
    simp only [Nodup, pairwise_map, pairwise_filterMap]
    refine distinct.imp_of_mem fun left right different r first s second same => different ?_
    rw [put _ left r first, put _ right s second, same]
  · obtain ⟨a, left, first⟩ := mem_filterMap.mp member
    obtain ⟨b, right, second⟩ := mem_filterMap.mp gone
    have same : a = b := inj_on_of_nodup_map distinct left right (by
      rw [put a left row first, deleted b right _ second])
    subst same
    exact never a row _ first second
  · obtain ⟨e, member, id⟩ := List.mem_map.mp listed
    rcases either e member k id with ⟨row, found, same⟩ | found
    · exact .inl (List.mem_map.mpr ⟨row, mem_filterMap.mpr ⟨e, member, found⟩, same⟩)
    · exact .inr (mem_filterMap.mpr ⟨e, member, found⟩)
  · rintro (listed | listed)
    · obtain ⟨row, inRows, rfl⟩ := List.mem_map.mp listed
      obtain ⟨e, member, found⟩ := mem_filterMap.mp inRows
      exact List.mem_map.mpr ⟨e, member, put e member row found⟩
    · obtain ⟨e, member, found⟩ := mem_filterMap.mp listed
      exact List.mem_map.mpr ⟨e, member, deleted e member k found⟩

include distinct shaped in
theorem effectsDelta_shaped (requestId : String) (sequence : UInt64) :
    (effectsDelta requestId effects sequence).Shaped := by
  have versionIds : (effects.map recordVersion).map versionIdentity = effects.map identity := by
    rw [List.map_map]
    rfl
  obtain ⟨work, deletedWork, workListed⟩ := rows_of_effects distinct StoredWork.key (.mk none)
    (fun e member _ found => (e.workRow?_eq_some (shaped e member) found).1)
    (fun e member _ => e.deletedWork?_eq_some (shaped e member))
    (fun e member _ => e.work_cases (shaped e member)) (by
      rintro ⟨_, _, change⟩ row key put deleted
      cases change <;> simp [workRow?, deletedWork?] at put deleted)
  obtain ⟨state, deletedState, stateListed⟩ := rows_of_effects distinct
    (fun row : StateRecord => (row.collection, row.key))
    (fun id : String × String => ⟨some id.1, id.2⟩)
    (fun e member _ found => (e.stateRow?_eq_some (shaped e member) found).1)
    (fun e _ _ => e.deletedState?_eq_some) (fun e member _ => e.state_cases (shaped e member)) (by
      rintro ⟨_, _, change⟩ row key put deleted
      cases change <;> simp [stateRow?, deletedState?] at put deleted)
  refine ⟨work, state, versionIds ▸ distinct, deletedWork, deletedState,
    fun key => versionIds ▸ workListed key, fun id => versionIds ▸ stateListed id, ?_, ?_⟩
  · intro row listed
    obtain ⟨e, member, found⟩ := mem_filterMap.mp listed
    obtain ⟨id, version⟩ := e.workRow?_eq_some (shaped e member) found
    exact List.mem_map.mpr ⟨e, member, by rw [recordVersion, id, version]⟩
  · intro row listed
    obtain ⟨e, member, found⟩ := mem_filterMap.mp listed
    obtain ⟨id, version⟩ := e.stateRow?_eq_some (shaped e member) found
    exact List.mem_map.mpr ⟨e, member, by rw [recordVersion, id, version]⟩

end Shaped

/-! ## The image of a merge -/

section Image

variable {snapshot : RecordSnapshot} {delta : CommitDelta} {released : List UniqueIdentity}
  {additions : List (UniqueIdentity × RecordIdentity)} {merged : List StoredWork}

theorem writeDelta_work_put (distinct : (merged.map StoredWork.key).Nodup) (member : row ∈ merged) :
    (writeDelta snapshot delta released additions merged).work[row.key]? = some row :=
  get_foldl_insert_of_mem StoredWork.key id _ distinct member

theorem writeDelta_work_absent (absent : key ∉ merged.map StoredWork.key) :
    (writeDelta snapshot delta released additions merged).work[key]? =
      if key ∈ delta.deletedWork then none else snapshot.work[key]? :=
  (get_foldl_insert_of_not_mem StoredWork.key id _ absent).trans (get_foldl_erase _ _ _)

variable (shaped : delta.Shaped)

include shaped in
theorem writeDelta_state_put {row : StateRecord} (member : row ∈ delta.state) :
    (writeDelta snapshot delta released additions merged).state[(row.collection, row.key)]? =
      some row :=
  get_foldl_insert_of_mem (fun row : StateRecord => (row.collection, row.key)) id _ shaped.state
    member

variable {key : String × String}

theorem writeDelta_state_absent
    (absent : key ∉ delta.state.map fun row => (row.collection, row.key)) :
    (writeDelta snapshot delta released additions merged).state[key]? =
      if key ∈ delta.deletedState then none else snapshot.state[key]? := by
  refine (get_foldl_insert_of_not_mem (fun row : StateRecord => (row.collection, row.key)) id _
    absent).trans ((get_foldl_erase _ _ _).trans ?_)
  congr

include shaped in
theorem writeDelta_versions_listed (member : version ∈ delta.versions) :
    (writeDelta snapshot delta released additions merged).versions[versionIdentity version]? =
      some version.version :=
  get_foldl_insert_of_mem versionIdentity RecordVersion.version _ shaped.versions member

theorem writeDelta_versions_other {id : RecordIdentity}
    (absent : id ∉ delta.versions.map versionIdentity) :
    (writeDelta snapshot delta released additions merged).versions[id]? = snapshot.versions[id]? :=
  get_foldl_insert_of_not_mem versionIdentity RecordVersion.version _ absent

end Image

/-! ## Resolved commands -/

/-- What resolution adds to a delta: one checked pair of commands per row. -/
structure Resolved (group : CommitGroup) (before : RecordSnapshot) (schema : QueueSchema)
    (base delta : CommitDelta) : Prop where
  same : delta = { base with workFields := delta.workFields, workBodies := delta.workBodies }
  commands : ∀ row ∈ base.work, ∃ change body, resolveRow group before schema row =
    .ok (change, body) ∧ delta.workFields[row.key]? = some change ∧
      delta.workBodies[row.key]? = some body
  outside : ∀ key : String, key ∉ base.work.map StoredWork.key →
    delta.workFields[key]? = base.workFields[key]? ∧ delta.workBodies[key]? = base.workBodies[key]?

variable {before : RecordSnapshot} {delta base : CommitDelta}

theorem foldlM_addCommands (distinct : (base.work.map StoredWork.key).Nodup)
    (ok : base.work.foldlM (addCommands group before schema) base = .ok delta) :
    Resolved group before schema base delta := by
  have invariant := foldlM_invariant (P := fun seen (delta : CommitDelta) =>
      (seen.map StoredWork.key).Nodup →
      delta = { base with workFields := delta.workFields, workBodies := delta.workBodies } ∧
      (∀ row ∈ seen, ∃ change body, resolveRow group before schema row = .ok (change, body) ∧
        delta.workFields[row.key]? = some change ∧ delta.workBodies[row.key]? = some body) ∧
      ∀ key : String, key ∉ seen.map StoredWork.key →
        delta.workFields[key]? = base.workFields[key]? ∧
          delta.workBodies[key]? = base.workBodies[key]?) (by simp) ?_ ok distinct
  · exact ⟨invariant.1, invariant.2.1, invariant.2.2⟩
  · intro seen row delta delta' holds step distinct
    rw [List.map_append, nodup_append] at distinct
    obtain ⟨same, commands, outside⟩ := holds distinct.1
    obtain ⟨⟨change, body⟩, resolved, final⟩ := bind_eq_ok.mp step
    cases final
    refine ⟨by rw [same], ?_, ?_⟩
    · intro other member
      rcases mem_append.mp member with earlier | last
      · obtain ⟨c, b, found, fields, bodies⟩ := commands other earlier
        have different : row.key ≠ other.key := fun clash =>
          distinct.2.2 other.key (mem_map_of_mem earlier) row.key (by simp) clash.symm
        exact ⟨c, b, found, by rw [get_insert_ne _ _ different, fields],
          by rw [get_insert_ne _ _ different, bodies]⟩
      · rw [mem_singleton.mp last]
        exact ⟨change, body, resolved, get_insert_self _ _ _, get_insert_self _ _ _⟩
    · intro key absent
      simp only [List.map_append, map_cons, map_nil, mem_append, mem_singleton, not_or] at absent
      obtain ⟨fields, bodies⟩ := outside key absent.1
      exact ⟨by rw [get_insert_ne _ _ (Ne.symm absent.2), fields],
        by rw [get_insert_ne _ _ (Ne.symm absent.2), bodies]⟩

theorem resolveGroupWrites_spec (shaped : base.Shaped)
    (ok : resolveGroupWrites group before base schema = .ok delta) :
    Resolved group before schema base delta ∧ validateResolvedWrites delta = .ok () := by
  obtain ⟨_, folded, ok⟩ := bind_eq_ok.mp ok
  obtain ⟨valid, ok⟩ := check_bind_eq_ok.mp ok
  cases ok
  exact ⟨foldlM_addCommands shaped.work folded, valid⟩

theorem Resolved.shaped (resolved : Resolved group before schema base delta)
    (shaped : base.Shaped) : delta.Shaped := by
  rw [resolved.same]
  exact ⟨shaped.work, shaped.state, shaped.versions, shaped.deletedWork, shaped.deletedState,
    shaped.workListed, shaped.stateListed, shaped.workVersion, shaped.stateVersion⟩

section Rows

variable {delta : CommitDelta} (shaped : delta.Shaped)

include shaped in
theorem workRow_of_mem (member : row ∈ delta.work) : workRow delta row.key = some row :=
  get_ofList_of_mem (by rw [List.map_map]; exact shaped.work)
    (List.mem_map.mpr ⟨row, member, rfl⟩)

theorem workRow_of_not_mem (absent : key ∉ delta.work.map StoredWork.key) :
    workRow delta key = none :=
  get_ofList_of_not_mem (by rw [List.map_map]; exact absent)

include shaped in
theorem stateRow_of_mem {row : StateRecord} (member : row ∈ delta.state) :
    stateRow delta (row.collection, row.key) = some row :=
  get_ofList_of_mem (by rw [List.map_map]; exact shaped.state)
    (List.mem_map.mpr ⟨row, member, rfl⟩)

theorem stateRow_of_not_mem (absent : id ∉ delta.state.map fun row => (row.collection, row.key)) :
    stateRow delta id = none :=
  get_ofList_of_not_mem (by rw [List.map_map]; exact absent)

include shaped in
/-- Every row of a delta with ownership effects passed the view check. -/
theorem rowView_of_uniqueEffects {snapshot : RecordSnapshot} {unique : UniqueFieldEffects}
    (owned : uniqueEffects delta snapshot schema = .ok unique) (member : row ∈ delta.work) :
    ∃ change body, delta.workFields[row.key]? = some change ∧
      delta.workBodies[row.key]? = some body ∧
      validateWorkWriteView snapshot.work[row.key]? row change body = .ok () := by
  obtain ⟨-, folded⟩ := check_bind_eq_ok.mp owned
  obtain ⟨_, _, step⟩ := foldlM_each folded _ (shaped.workVersion row member)
  rw [uniqueEffect, workUniqueEffect, workRow_of_mem shaped member] at step
  obtain ⟨change, fields, step⟩ := bind_eq_ok.mp step
  obtain ⟨body, bodies, step⟩ := bind_eq_ok.mp step
  obtain ⟨viewed, -⟩ := check_bind_eq_ok.mp step
  exact ⟨change, body, index_eq_ok.mp fields, index_eq_ok.mp bodies, viewed⟩

end Rows

/-! ## Commits -/

/-- A group that was accepted, with the writes and the ownership effects derived from it. -/
structure Accepted [Sha256] (group : CommitGroup) (snapshot : RecordSnapshot) (now : Int64)
    (schema : QueueSchema) where
  effects : List Effect
  sequence : UInt64
  delta : CommitDelta
  unique : UniqueFieldEffects
  validated : validateGroupSnapshot (addressedSnapshot group snapshot) group = .ok ()
  planned : planEffects now schema snapshot snapshot.nextSequence (updates group) =
    .ok (effects, sequence)
  resolved : resolveGroupWrites group snapshot
    (effectsDelta group.requestId effects sequence) schema = .ok delta
  owned : uniqueEffects delta snapshot schema = .ok unique

namespace Accepted

variable [Sha256] {group : CommitGroup} {snapshot : RecordSnapshot} {now : Int64}
  {schema : QueueSchema} (accepted : Accepted group snapshot now schema)

include accepted in
theorem valid : SnapshotValid (addressedSnapshot group snapshot) :=
  validateSnapshot_eq_ok.mp (check_bind_eq_ok.mp accepted.validated).1

include accepted in
theorem cell_keyed (member : u ∈ updates group) : (snapshot.cell u.identity).Keyed u.identity := by
  intro stored found
  have addressed := identity_mem_addressed member
  generalize u.identity = id at *
  obtain ⟨collection, key⟩ := id
  cases collection with
  | none => exact (addressed_workRowValid accepted.valid addressed found).keyed
  | some collection => simp [RecordSnapshot.cell] at found

/-- Every effect of a group is the outcome of one of its updates. -/
theorem effect_source (member : effect ∈ accepted.effects) :
    ∃ u ∈ updates group, ∃ before after,
      Outcome now schema (snapshot.cell u.identity) before u (some effect) after ∧
        snapshot.nextSequence ≤ before ∧ after ≤ accepted.sequence :=
  (planEffects_mem accepted.planned).2 effect member

theorem effect_shaped : ∀ effect ∈ accepted.effects, effect.Shaped := by
  intro effect member
  obtain ⟨u, among, _, _, outcome, _⟩ := accepted.effect_source member
  exact outcome.shaped (accepted.cell_keyed among)

variable (distinct : group.addressed.Nodup)

include distinct in
theorem effects_nodup : (accepted.effects.map identity).Nodup := by
  rw [planEffects_identities accepted.planned]
  exact (updates_nodup distinct).sublist (filter_sublist.map GroupUpdate.identity)

include distinct in
theorem resolved_spec : Resolved group snapshot schema
    (effectsDelta group.requestId accepted.effects accepted.sequence) accepted.delta ∧
      validateResolvedWrites accepted.delta = .ok () :=
  resolveGroupWrites_spec
    (effectsDelta_shaped (accepted.effects_nodup distinct) accepted.effect_shaped _ _)
    accepted.resolved

include distinct in
theorem shaped : accepted.delta.Shaped :=
  (accepted.resolved_spec distinct).1.shaped
    (effectsDelta_shaped (accepted.effects_nodup distinct) accepted.effect_shaped _ _)

include distinct in
/-- The delta of a group is the delta of its effects, with commands. -/
theorem delta_eq : accepted.delta =
    { effectsDelta group.requestId accepted.effects accepted.sequence with
      workFields := accepted.delta.workFields
      workBodies := accepted.delta.workBodies } :=
  (accepted.resolved_spec distinct).1.same

include distinct in
/-- The listed records are the modified records of the group, in receipt order. -/
theorem versions_eq_modifiedRecords :
    (accepted.delta.versions.map fun v => (v.collection, v.key)) = group.modifiedRecords := by
  rw [accepted.delta_eq distinct, modifiedRecords_eq]
  have ids := congrArg (List.map RecordIdentity.pair) (planEffects_identities accepted.planned)
  rw [List.map_map, List.map_map] at ids
  rw [effectsDelta, List.map_map]
  exact ids

/-- The commands of a row: resolved from the old row, and checked against it. -/
structure Command (row : StoredWork) (change : ResolvedFields) (body : ResolvedBody) : Prop where
  fields : accepted.delta.workFields[row.key]? = some change
  bodies : accepted.delta.workBodies[row.key]? = some body
  resolved : resolveRow group snapshot schema row = .ok (change, body)
  viewed : validateWorkWriteView snapshot.work[row.key]? row change body = .ok ()

include distinct in
theorem command (member : row ∈ accepted.delta.work) :
    ∃ change body, accepted.Command row change body := by
  obtain ⟨change, body, fields, bodies, viewed⟩ :=
    rowView_of_uniqueEffects (accepted.shaped distinct) accepted.owned member
  rw [accepted.delta_eq distinct] at member
  obtain ⟨change', body', resolved, fields', bodies'⟩ :=
    (accepted.resolved_spec distinct).1.commands row member
  cases fields.symm.trans fields'
  cases bodies.symm.trans bodies'
  exact ⟨change, body, fields, bodies, resolved, viewed⟩

end Accepted

/-- An accepted group whose ownership effects are admissible. -/
structure Commit [Sha256] (group : CommitGroup) (snapshot : RecordSnapshot) (now : Int64)
    (schema : QueueSchema) extends Accepted group snapshot now schema where
  merged : List StoredWork
  admissible : unique.validate snapshot = .ok (.ok ())
  rows : delta.work.mapM (mergeWorkRow snapshot delta) = .ok merged

namespace Commit

variable [Sha256] {group : CommitGroup} {snapshot : RecordSnapshot} {now : Int64}
  {schema : QueueSchema}

def after (commit : Commit group snapshot now schema) : RecordSnapshot :=
  writeDelta snapshot commit.delta commit.unique.releases.keys commit.unique.claims commit.merged

variable (commit : Commit group snapshot now schema)

variable (distinct : group.addressed.Nodup)

include distinct in
/-- The merged rows are the rows of the delta, with their commands applied to the old rows. -/
theorem merged_spec : Forall₂ (fun row merged => ∃ change body,
    commit.Command row change body ∧ merged = mergeRow snapshot.work[row.key]? row change body)
      commit.delta.work commit.merged := by
  obtain ⟨length, merges⟩ := forall₂_iff_zip.mp ((mapM_eq_ok _ _ _).mp commit.rows)
  refine forall₂_iff_zip.mpr ⟨length, fun {row merged} paired => ?_⟩
  obtain ⟨change, body, command⟩ := commit.command distinct (of_mem_zip paired).1
  have merge := merges paired
  rw [mergeWorkRow, index_eq_ok.mpr command.fields, index_eq_ok.mpr command.bodies] at merge
  exact ⟨change, body, command, (Except.ok.inj merge).symm⟩

include distinct in
theorem merged_keys : commit.merged.map StoredWork.key = commit.delta.work.map StoredWork.key := by
  rw [eq_comm, ← forall₂_eq_eq_eq, forall₂_map_left_iff, forall₂_map_right_iff]
  refine (commit.merged_spec distinct).imp ?_
  rintro row _ ⟨change, body, _, rfl⟩
  rfl

include distinct in
/-- A row of the delta is stored merged. -/
theorem after_work_put (member : row ∈ commit.delta.work) : ∃ change body,
    commit.Command row change body ∧
      commit.after.work[row.key]? = some (mergeRow snapshot.work[row.key]? row change body) := by
  obtain ⟨merged, among, change, body, command, rfl⟩ :=
    forall₂_mem_left (commit.merged_spec distinct) member
  refine ⟨change, body, command, writeDelta_work_put ?_ among⟩
  rw [commit.merged_keys distinct]
  exact (commit.shaped distinct).work

include distinct in
theorem after_work_deleted (deleted : key ∈ commit.delta.deletedWork) :
    commit.after.work[key]? = none := by
  refine (writeDelta_work_absent fun listed => ?_).trans (if_pos deleted)
  rw [commit.merged_keys distinct] at listed
  obtain ⟨row, member, rfl⟩ := List.mem_map.mp listed
  exact (commit.shaped distinct).deletedWork row member deleted

include distinct in
theorem after_work_other
    (absent : (⟨none, key⟩ : RecordIdentity) ∉ commit.delta.versions.map versionIdentity) :
    commit.after.work[key]? = snapshot.work[key]? := by
  rw [(commit.shaped distinct).workListed, not_or, ← commit.merged_keys distinct] at absent
  exact (writeDelta_work_absent absent.1).trans (if_neg absent.2)

include distinct in
theorem after_state_put {row : StateRecord} (member : row ∈ commit.delta.state) :
    commit.after.state[(row.collection, row.key)]? = some row :=
  writeDelta_state_put (commit.shaped distinct) member

include distinct in
theorem after_state_deleted (deleted : id ∈ commit.delta.deletedState) :
    commit.after.state[id]? = none := by
  refine (writeDelta_state_absent fun listed => ?_).trans (if_pos deleted)
  obtain ⟨row, member, rfl⟩ := List.mem_map.mp listed
  exact (commit.shaped distinct).deletedState row member deleted

include distinct in
theorem after_state_other
    (absent : (⟨some id.1, id.2⟩ : RecordIdentity) ∉ commit.delta.versions.map versionIdentity) :
    commit.after.state[id]? = snapshot.state[id]? := by
  rw [(commit.shaped distinct).stateListed, not_or] at absent
  exact (writeDelta_state_absent absent.1).trans (if_neg absent.2)

include distinct in
theorem after_versions_listed (member : version ∈ commit.delta.versions) :
    commit.after.versions[versionIdentity version]? = some version.version :=
  writeDelta_versions_listed (commit.shaped distinct) member

theorem after_versions_other {id : RecordIdentity}
    (absent : id ∉ commit.delta.versions.map versionIdentity) :
    commit.after.versions[id]? = snapshot.versions[id]? :=
  writeDelta_versions_other absent

end Commit

section Cases

variable [Sha256] {group : CommitGroup} {snapshot : RecordSnapshot} {now : Int64}
  {schema : QueueSchema} (accepted : Accepted group snapshot now schema)
  (distinct : group.addressed.Nodup)

include distinct in
theorem applyGroup_of_planEffects
    (planned : planEffects now schema snapshot snapshot.nextSequence (updates group) =
      .ok (effects, sequence)) :
    ∃ candidate, applyGroup now schema group (addressedSnapshot group snapshot) =
      .ok (effectsDelta group.requestId effects sequence, candidate) := by
  have applied := applyGroup_effects now schema group snapshot distinct
  rw [planned] at applied
  obtain ⟨⟨delta, candidate⟩, found, rfl⟩ := map_eq_ok.mp applied
  exact ⟨candidate, found⟩

include distinct in
theorem Accepted.rows_total :
    ∃ merged, accepted.delta.work.mapM (mergeWorkRow snapshot accepted.delta) = .ok merged := by
  have resolved := (accepted.resolved_spec distinct).1
  have same : accepted.delta.work =
      (effectsDelta group.requestId accepted.effects accepted.sequence).work := by
    rw [accepted.delta_eq distinct]
  have each : ∀ row ∈ accepted.delta.work, ∃ merged,
      mergeWorkRow snapshot accepted.delta row = .ok merged := by
    intro row member
    obtain ⟨change, body, -, fields, bodies⟩ := resolved.commands row (same ▸ member)
    exact ⟨_, bind_eq_ok.mpr ⟨change, index_eq_ok.mpr fields,
      bind_eq_ok.mpr ⟨body, index_eq_ok.mpr bodies, rfl⟩⟩⟩
  choose! merged found using each
  exact ⟨_, mapM_ok_of_forall _ merged _ found⟩

include distinct in
theorem Accepted.applied : ∃ candidate,
    applyGroup now schema group (addressedSnapshot group snapshot) =
      .ok (effectsDelta group.requestId accepted.effects accepted.sequence, candidate) :=
  applyGroup_of_planEffects distinct accepted.planned

include distinct in
theorem Accepted.planCommitGroup_rejected {reason : Rejection}
    (refused : accepted.unique.validate snapshot = .ok (.error reason)) :
    planCommitGroup group snapshot now schema =
      (.ok (rejectedDelta group snapshot reason), snapshot) := by
  obtain ⟨candidate, applied⟩ := accepted.applied distinct
  have settled : resolveAndValidate group snapshot
      (effectsDelta group.requestId accepted.effects accepted.sequence) schema =
      .ok (accepted.delta, .error reason) := by
    simp [resolveAndValidate, accepted.resolved, validateUniques, accepted.owned, refused,
      Except.map]
  simp only [planCommitGroup, accepted.validated, applied, settled]

include distinct in
theorem Accepted.planCommitGroup_committed
    (admissible : accepted.unique.validate snapshot = .ok (.ok ())) :
    ∃ commit : Commit group snapshot now schema, commit.toAccepted = accepted ∧
      planCommitGroup group snapshot now schema = (.ok accepted.delta, commit.after) := by
  obtain ⟨candidate, applied⟩ := accepted.applied distinct
  obtain ⟨merged, rows⟩ := accepted.rows_total distinct
  have settled : resolveAndValidate group snapshot
      (effectsDelta group.requestId accepted.effects accepted.sequence) schema =
      .ok (accepted.delta, .ok accepted.unique.claims) := by
    simp [resolveAndValidate, accepted.resolved, validateUniques, accepted.owned, admissible,
      Except.map]
  refine ⟨⟨accepted, merged, admissible, rows⟩, rfl, ?_⟩
  have prepared : prepareMerge snapshot accepted.delta schema = .ok (accepted.unique, merged) := by
    simp [prepareMerge, accepted.owned, rows]
  simp only [planCommitGroup, accepted.validated, applied, settled, mergeDelta, prepared,
    Commit.after]

variable (group snapshot now schema) in
/-- A group is refused by one of its updates, or for its ownership effects. -/
def Refused (reason : Rejection) : Prop :=
  (validateGroupSnapshot (addressedSnapshot group snapshot) group = .ok () ∧
    planEffects now schema snapshot snapshot.nextSequence (updates group) = .error reason) ∨
  ∃ accepted : Accepted group snapshot now schema,
    accepted.unique.validate snapshot = .ok (.error reason)

include distinct in
theorem Refused.planCommitGroup {reason : Rejection}
    (refused : Refused group snapshot now schema reason) :
    planCommitGroup group snapshot now schema =
      (.ok (rejectedDelta group snapshot reason), snapshot) := by
  rcases refused with ⟨validated, planned⟩ | ⟨accepted, refused⟩
  · have applied := applyGroup_effects now schema group snapshot distinct
    rw [planned] at applied
    cases result : applyGroup now schema group (addressedSnapshot group snapshot) with
    | ok outcome =>
      rw [result] at applied
      cases applied
    | error e =>
      rw [result] at applied
      cases applied
      simp only [QueuePlanner.planCommitGroup, validated, result]
  · exact accepted.planCommitGroup_rejected distinct refused

variable (group snapshot now schema) in
theorem planCommitGroup_cases (distinct : group.addressed.Nodup) :
    (∃ e, planCommitGroup group snapshot now schema = (.error e, snapshot)) ∨
    (∃ reason, Refused group snapshot now schema reason ∧
      planCommitGroup group snapshot now schema =
        (.ok (rejectedDelta group snapshot reason), snapshot)) ∨
    ∃ commit : Commit group snapshot now schema,
      planCommitGroup group snapshot now schema = (.ok commit.delta, commit.after) := by
  cases validated : validateGroupSnapshot (addressedSnapshot group snapshot) group with
  | error e => exact .inl ⟨e, by simp only [planCommitGroup, validated]⟩
  | ok u =>
    cases planned : planEffects now schema snapshot snapshot.nextSequence (updates group) with
    | error reason =>
      have refused : Refused group snapshot now schema reason := .inl ⟨validated, planned⟩
      exact .inr (.inl ⟨reason, refused, refused.planCommitGroup distinct⟩)
    | ok outcome =>
      obtain ⟨effects, sequence⟩ := outcome
      obtain ⟨candidate, applied⟩ := applyGroup_of_planEffects distinct planned
      cases settled : resolveAndValidate group snapshot
          (effectsDelta group.requestId effects sequence) schema with
      | error e => exact .inl ⟨e, by simp only [planCommitGroup, validated, applied, settled]⟩
      | ok outcome =>
        obtain ⟨delta, resolved, settled⟩ := bind_eq_ok.mp settled
        obtain ⟨verdict, checked, -⟩ := bind_eq_ok.mp settled
        obtain ⟨unique, owned, checked⟩ := bind_eq_ok.mp checked
        obtain ⟨validity, answered, -⟩ := bind_eq_ok.mp checked
        let accepted : Accepted group snapshot now schema :=
          ⟨effects, sequence, delta, unique, validated, planned, resolved, owned⟩
        cases validity with
        | error reason =>
          exact .inr (.inl ⟨reason, .inr ⟨accepted, answered⟩,
            accepted.planCommitGroup_rejected distinct answered⟩)
        | ok u =>
          obtain ⟨commit, same, committed⟩ := accepted.planCommitGroup_committed distinct answered
          exact .inr (.inr ⟨commit, by rw [committed, ← same]⟩)

end Cases

end QueuePlanner
