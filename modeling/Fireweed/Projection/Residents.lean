import Fireweed.Projection.Effects

/-!
# Resident records

The records and their cached keys stay as `Resident` describes them under every
edit that meets its guard.
-/

namespace Projection

open BTree Domain Std

variable {Priority Value Typed : Type}

namespace ProjectionData

section Keeping

variable {definition : QueueDefinition Priority Value Typed} {stamp : Stamp}
  {data next : ProjectionData Priority Value Typed} {id : ItemId}
  {record new : ItemRecord Priority Value Typed}

open ProjectionData

theorem resident_new (definition : QueueDefinition Priority Value Typed) :
    Resident definition (.new definition) where
  keyed id record found := by simp [new] at found
  keyable id record found := by simp [new] at found
  cached id keys found := by simp [new] at found
  live_cached id record found := by simp [new] at found

section

variable (resident : Resident definition data)

include resident

/-- One record is entered or rewritten, with its cache entry. -/
theorem Resident.put (items : next.items = data.items.insert id new)
    (others : ∀ a : ItemId, id ≠ a → next.framedIndexKeys[a]? = data.framedIndexKeys[a]?)
    (own : new.itemId = id) (keyable : definition.Keyable new)
    (entry : ∀ keys, next.framedIndexKeys[id]? = some keys → keys = definition.keysOf new)
    (live : new.superseded = false → next.framedIndexKeys[id]? = some (definition.keysOf new)) :
    Resident definition next := by
  have get : ∀ a : ItemId, next.items[a]? = if id = a then some new else data.items[a]? := by
    intro a
    rw [items, get_insert]
  constructor
  · intro a found here
    rw [get] at here
    split at here
    · next same => cases here; exact own.trans same
    · exact resident.keyed a found here
  · intro a found here
    rw [get] at here
    split at here
    · cases here; exact keyable
    · exact resident.keyable a found here
  · intro a keys here
    rw [get]
    split
    · next same => exact ⟨new, rfl, entry keys (same ▸ here)⟩
    · next different => exact resident.cached a keys ((others a different) ▸ here)
  · intro a found here alive
    rw [get] at here
    split at here
    · next same => cases here; exact same ▸ live alive
    · next different => exact (others a different).trans (resident.live_cached a found here alive)

/-- A record is rewritten without touching its keys. -/
theorem Resident.rewrite (found : data.items[id]? = some record)
    (items : next.items = data.items.insert id new)
    (framed : next.framedIndexKeys = data.framedIndexKeys) (own : new.itemId = record.itemId)
    (superseded : new.superseded = record.superseded) (fields : new.fields = record.fields)
    (indexFields : new.indexFields = record.indexFields)
    (entity : new.entityDocument = record.entityDocument) : Resident definition next := by
  have same : definition.recordEntityIndexKeys new = definition.recordEntityIndexKeys record :=
    QueueDefinition.recordEntityIndexKeys_congr fields indexFields entity
  obtain ⟨keyable, keys⟩ := QueueDefinition.keyable_of_eq_ok
    (same.trans (resident.keyable id record found))
  refine resident.put items (fun a _ => by rw [framed]) (own.trans (resident.keyed id record found))
    keyable ?_ ?_
  · intro cached here
    rw [framed] at here
    obtain ⟨other, found', rfl⟩ := resident.cached id cached here
    rw [found] at found'
    cases found'
    exact keys
  · intro live
    rw [framed, ← keys]
    exact resident.live_cached id record found (superseded ▸ live)

theorem Resident.erased (items : next.items = data.items.erase id)
    (framed : next.framedIndexKeys = data.framedIndexKeys.erase id) : Resident definition next := by
  have get : ∀ (a : ItemId) found, next.items[a]? = some found →
      id ≠ a ∧ data.items[a]? = some found := by
    intro a found here
    rw [items, get_erase] at here
    split at here
    · cases here
    · next different => exact ⟨different, here⟩
  constructor
  · exact fun a found here => resident.keyed a found (get a found here).2
  · exact fun a found here => resident.keyable a found (get a found here).2
  · intro a keys here
    rw [framed, get_erase] at here
    split at here
    · cases here
    · next different =>
      rw [items, get_erase_ne _ different]
      exact resident.cached a keys here
  · intro a found here live
    obtain ⟨different, here⟩ := get a found here
    rw [framed, get_erase_ne _ different]
    exact resident.live_cached a found here live

/-- Nothing about the records changes. -/
theorem Resident.congr (items : next.items = data.items)
    (framed : next.framedIndexKeys = data.framedIndexKeys) : Resident definition next where
  keyed := by rw [items]; exact resident.keyed
  keyable := by rw [items]; exact resident.keyable
  cached := by rw [items, framed]; exact resident.cached
  live_cached := by rw [items, framed]; exact resident.live_cached

theorem Resident.afterTransition (found : data.items[id]? = some record) (state : ItemState) :
    Resident definition (data.afterTransition definition stamp id record state) :=
  resident.rewrite found rfl rfl rfl rfl rfl rfl rfl

end

theorem finalizedRecord_same (outcome : FinalizeOutcome)
    (record : ItemRecord Priority Value Typed) :
    (finalizedRecord stamp outcome record).itemId = record.itemId ∧
      (finalizedRecord stamp outcome record).superseded = record.superseded ∧
      (finalizedRecord stamp outcome record).state = record.state ∧
      (finalizedRecord stamp outcome record).gateKeys = record.gateKeys ∧
      (finalizedRecord stamp outcome record).fields = record.fields ∧
      (finalizedRecord stamp outcome record).indexFields = record.indexFields ∧
      (finalizedRecord stamp outcome record).entityDocument = record.entityDocument ∧
      (finalizedRecord stamp outcome record).explicitClientItemKey =
        record.explicitClientItemKey := by
  rw [finalizedRecord]
  repeat' split
  all_goals exact ⟨rfl, rfl, rfl, rfl, rfl, rfl, rfl, rfl⟩

theorem afterUpdate_cached {update : UpdateFieldsCommand Priority Value}
    {oldKeys newKeys : List IndexKey}
    (cached : data.framedIndexKeys[update.itemId]? = some (definition.keysOf record))
    (keys : (oldKeys = definition.keysOf record ∧ newKeys = definition.keysOf new) ∨
      (oldKeys = [] ∧ newKeys = [] ∧ definition.keysOf record = definition.keysOf new)) :
    (data.afterUpdate definition update record new oldKeys newKeys).framedIndexKeys[update.itemId]?
      =
      some (definition.keysOf new) := by
  rw [afterUpdate, updating]
  dsimp only
  split
  · next written =>
    rw [get_insert_self]
    rcases keys with ⟨_, rfl⟩ | ⟨rfl, rfl, _⟩
    · rfl
    · simp at written
  · next kept =>
    rw [cached]
    rcases keys with ⟨rfl, rfl⟩ | ⟨_, _, same⟩
    · simp only [Bool.or_eq_true, Bool.not_eq_true', not_or, Bool.not_eq_false,
        List.isEmpty_iff] at kept
      rw [kept.1, kept.2]
    · rw [same]

theorem Effect.resident {edit : Edit Priority Value Typed}
    (effect : Effect definition stamp data edit next) (resident : Resident definition data) :
    Resident definition next := by
  cases effect with
  | insert fresh keyable =>
    exact resident.put rfl (fun a different => get_insert_ne _ _ different) rfl keyable
      (of_get_insert rfl) fun _ => get_insert_self ..
  | claim found live pending | cohortClaim found live pending =>
    exact (resident.afterTransition found .leased).rewrite (get_insert_self ..) rfl rfl rfl rfl rfl
      rfl rfl
  | renew found | reassign found | fence found =>
    exact resident.rewrite found rfl rfl rfl rfl rfl rfl rfl
  | @update update record indexFields oldKeys newKeys found live keyable keys =>
    have own := resident.keyed _ _ found
    have cached := resident.live_cached _ _ found live
    have entry := afterUpdate_cached cached keys
    refine resident.put rfl ?_ own keyable ?_ fun _ => entry
    · intro a different
      rw [afterUpdate, updating]
      dsimp only
      split
      · exact get_insert_ne _ _ different
      · rfl
    · exact of_get entry rfl
  | purge found | mutatePurge found => exact resident.erased rfl rfl
  | replace found resolved keyable =>
    have own := resident.keyed _ _ found
    exact resident.put rfl (fun a different => get_insert_ne _ _ different) own keyable
      (of_get_insert rfl) fun _ => get_insert_self ..
  | gates => exact resident.congr rfl rfl
  | finalize found live leased ended =>
    obtain ⟨own, superseded, _, _, fields, indexFields, entity, _⟩ := finalizedRecord_same _ _
    exact (resident.afterTransition found _).rewrite (get_insert_self ..) rfl rfl own superseded
      fields indexFields entity
  | supersede found pending =>
    have own := resident.keyed _ _ found
    have keyable := resident.keyable _ _ found
    exact resident.put rfl (fun a different => get_erase_ne _ different) own keyable of_get_erase
      fun live => by cases live
  | expire found live leased =>
    exact (resident.afterTransition found .pending).rewrite (get_insert_self ..) rfl rfl rfl rfl rfl
      rfl rfl
  | expireCohort found => exact resident.rewrite found rfl rfl rfl rfl rfl rfl rfl
  | pause | resume => exact resident.congr rfl rfl

end Keeping

end ProjectionData

end Projection
