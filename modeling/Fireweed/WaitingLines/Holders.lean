import Fireweed.WaitingLines

/-!
# Holders

A client that got its turn holds its claim until it gives up its slot; from then on
the claim is held outside of the room, by a permit. A hall is a room with a ledger:
for every claim the ledger has the number of its holders, inside and outside.
-/

namespace WaitingLines

open BTree Std

variable {κ γ ν φ ω : Type} [DecidableEq κ] [DecidableEq γ] [Ord ν] [TransOrd ν]

def View.granted (view : View κ γ φ ω) (claim : γ) (client : φ) (slot : ω) : Bool :=
  view.claim client = claim ∧ view.status slot = .granted

def View.waiting (view : View κ γ φ ω) (_ : φ) (slot : ω) : Bool := view.status slot = .waiting

/-- A room with the claims held outside of it, the ledger of all claims, and the number of clients
that wait. -/
structure Hall (view : View κ γ φ ω) (clients : BTreeMap ν φ) (slots : BTreeMap UInt64 ω)
    (log : List (Event κ UInt64)) (held : List γ) (ledger : γ → Nat) (queued : Nat) : Prop
    extends Room view clients slots log where
  live : ∀ {a : ν} {f ticket}, clients[a]? = some f → view.ticket f = some ticket →
    view.active f = true → ∃ slot, slots[ticket]? = some slot
  spent : ∀ {a : ν} {f}, clients[a]? = some f → view.spent f = true → view.slot slots f = none
  books : ∀ claim, held.count claim + view.count clients slots (view.granted claim) = ledger claim
  waits : view.count clients slots view.waiting = queued

namespace Hall

variable {view : View κ γ φ ω} {clients clients' : BTreeMap ν φ} {slots slots' : BTreeMap UInt64 ω}
  {log log' : List (Event κ UInt64)} {held held' : List γ} {ledger ledger' : γ → Nat}
  {queued queued' : Nat} {a : ν} {f g : φ} {ticket : UInt64} {slot slot' : ω} {key : κ}

theorem empty : Hall view (∅ : BTreeMap ν φ) ∅ [] [] (fun _ => 0) 0 where
  toRoom := .empty
  live here := by simp at here
  spent here := by simp at here
  books claim := by simp
  waits := by simp

/-- The claims outside, the ledger and the lines' log are exchanged. -/
theorem rebook (hall : Hall view clients slots log held ledger queued)
    (lines : ∀ key, line key log' = line key log) (more : joins log ≤ joins log')
    (books : ∀ claim, held'.count claim + ledger claim = held.count claim + ledger' claim) :
    Hall view clients slots log' held' ledger' queued where
  toRoom := hall.toRoom.relog lines more
  live := hall.live
  spent := hall.spent
  books claim := by
    have before := hall.books claim
    have moved := books claim
    omega
  waits := hall.waits

/-- With no client and no permit left, the room is empty and nothing is held. -/
theorem drained (hall : Hall view (∅ : BTreeMap ν φ) slots log [] ledger queued) :
    slots = ∅ ∧ (∀ claim, ledger claim = 0) ∧ queued = 0 := by
  refine ⟨?_, fun claim => ?_, ?_⟩
  · refine ExtTreeMap.ext_getElem? fun ticket => ?_
    rw [ExtTreeMap.getElem?_empty]
    cases found : slots[ticket]? with
    | none => rfl
    | some slot =>
      obtain ⟨a, f, atA, -⟩ := hall.owned found
      simp at atA
  · have books := hall.books claim
    simpa using books.symm
  · have waits := hall.waits
    simpa using waits.symm

variable [LawfulEqOrd ν] [DecidableEq ν]

open View

section

variable (hall : Hall view clients slots log held ledger queued)

include hall

theorem change (a : ν) (room : Room view clients' slots' log')
    (others : ∀ b ≠ a, clients'[b]? = clients[b]?)
    (apart : ∀ b ≠ a, ∀ f, clients[b]? = some f → view.slot slots' f = view.slot slots f)
    (live : ∀ g, clients'[a]? = some g → ∀ ticket, view.ticket g = some ticket →
      view.active g = true → ∃ slot, slots'[ticket]? = some slot)
    (spent : ∀ g, clients'[a]? = some g → view.spent g = true → view.slot slots' g = none)
    (books : ∀ claim,
      held'.count claim + view.weight clients' slots' (view.granted claim) a + ledger claim =
        held.count claim + view.weight clients slots (view.granted claim) a + ledger' claim)
    (waits : view.weight clients' slots' view.waiting a + queued =
      view.weight clients slots view.waiting a + queued') :
    Hall view clients' slots' log' held' ledger' queued' where
  toRoom := room
  live {b f ticket} found has active := by
    by_cases same : b = a
    · subst same
      exact live f found ticket has active
    · rw [others b same] at found
      obtain ⟨slot, there⟩ := hall.live found has active
      have slots := apart b same f found
      rw [slot_of_ticket has, slot_of_ticket has, there] at slots
      exact ⟨slot, slots⟩
  spent {b f} found done := by
    by_cases same : b = a
    · subst same
      exact spent f found done
    · rw [others b same] at found
      rw [apart b same f found]
      exact hall.spent found done
  books claim := by
    have counted := view.count_change slots' (view.granted claim) a others apart
    have before := hall.books claim
    have moved := books claim
    omega
  waits := by
    have counted := view.count_change slots' view.waiting a others apart
    have before := hall.waits
    omega

/-- A client without a slot comes, goes or changes its flags. -/
theorem unslotted (a : ν) (others : ∀ b ≠ a, clients'[b]? = clients[b]?)
    (before : ∀ f, clients[a]? = some f → view.slot slots f = none)
    (after : ∀ g, clients'[a]? = some g → view.ticket g = none) :
    Hall view clients' slots log held ledger queued := by
  have absent : ∀ g, clients'[a]? = some g → view.slot slots g = none :=
    fun g found => slot_of_none (after g found)
  refine hall.change a (hall.toRoom.unslotted a others before after) others (fun _ _ _ _ => rfl)
    ?_ (fun g found _ => absent g found) (fun claim => ?_) ?_
  · intro g found ticket has
    rw [after g found] at has
    cases has
  · rw [weight_none before, weight_none absent]
  · rw [weight_none before, weight_none absent]

omit hall [DecidableEq κ] [DecidableEq γ] in
theorem live_insert (has : view.ticket g = some ticket) (slot : ω) (other : UInt64)
    (has' : view.ticket g = some other) (_ : view.active g = true) :
    ∃ there, (slots.insert ticket slot)[other]? = some there := by
  cases has.symm.trans has'
  exact ⟨slot, get_insert_self ..⟩

/-- A client with a slot changes its flags, or its slot what is no status. -/
theorem touch (g : φ) (slot' : ω) (found : clients[a]? = some f) (has : view.ticket f = some ticket)
    (there : slots[ticket]? = some slot) (sameKey : view.key g = view.key f)
    (sameClaim : view.claim g = view.claim f) (sameTicket : view.ticket g = some ticket)
    (sameStatus : view.status slot' = view.status slot) (unspent : view.spent g = false) :
    Hall view (clients.insert a g) (slots.insert ticket slot') log held ledger queued := by
  have apart : ∀ other ≠ ticket, (slots.insert ticket slot')[other]? = slots[other]? :=
    get_insert_others _ _ _
  have old : view.slot slots f = some slot := by rw [slot_of_ticket has, there]
  have new : view.slot (slots.insert ticket slot') g = some slot' := by
    rw [slot_of_ticket sameTicket, get_insert_self]
  refine hall.change a (hall.toRoom.congr (fun b => ?_) fun other => ?_)
    (get_insert_others _ _ _)
    (hall.toRoom.slot_apart found has apart) (of_get_insert (live_insert sameTicket slot'))
    (of_get_insert fun done => absurd done (by simp [unspent])) (fun claim => ?_) ?_
  · rw [get_insert]
    split
    · next same =>
      subst same
      rw [found]
      simp [sameKey, sameTicket, has]
    · rfl
  · by_cases same : other = ticket
    · subst same
      rw [get_insert_self, there, Option.map_some, Option.map_some, sameStatus]
    · rw [apart other same]
  · rw [weight_some found old, weight_some (get_insert_self ..) new, granted,
      granted, sameClaim, sameStatus]
  · rw [weight_some found old, weight_some (get_insert_self ..) new, waiting, waiting, sameStatus]

theorem join (g : φ) (slot : ω) (found : clients[a]? = some f) (none_ : view.ticket f = none)
    (has : view.ticket g = some ticket) (next : ticket.toNat = joins log)
    (waits : view.status slot = .waiting) (unspent : view.spent g = false) :
    Hall view (clients.insert a g) (slots.insert ticket slot)
      (log ++ [.joined (view.key g) ticket]) held ledger (queued + 1) := by
  obtain ⟨unused, -⟩ := hall.toRoom.fresh next
  have before : ∀ f, clients[a]? = some f → view.slot slots f = none :=
    of_get found (slot_of_none none_)
  have new : view.slot (slots.insert ticket slot) g = some slot := by
    rw [slot_of_ticket has, get_insert_self]
  refine hall.change a (hall.toRoom.join found none_ has next waits)
    (get_insert_others _ _ _) ?_ (of_get_insert (live_insert has slot))
    (of_get_insert fun done => absurd done (by simp [unspent])) (fun claim => ?_) ?_
  · intro b _ h atB
    cases has' : view.ticket h with
    | none => rw [slot_of_none has', slot_of_none has']
    | some other =>
      rw [slot_of_ticket has', slot_of_ticket has', get_insert_ne]
      rintro rfl
      exact unused b h atB has'
  · rw [weight_none before, weight_some (get_insert_self ..) new, granted, waits]
    simp
  · rw [weight_none before, weight_some (get_insert_self ..) new, waiting, waits]
    simp only [decide_true, if_true]
    omega

theorem queued_pos (found : clients[a]? = some f) (there : view.slot slots f = some slot)
    (waits : view.status slot = .waiting) : 0 < queued := by
  have counted := view.weight_le_count clients slots view.waiting a
  rw [weight_some found there, waiting, hall.waits] at counted
  simp only [waits, decide_true, if_true] at counted
  omega

/-- A waiting client gets its turn and holds its claim. -/
theorem grant (slot' : ω) (ledger' : γ → Nat) (found : clients[a]? = some f)
    (has : view.ticket f = some ticket) (there : slots[ticket]? = some slot)
    (waits : view.status slot = .waiting) (turn : view.status slot' = .granted)
    (entered : ∀ claim, ledger' claim = ledger claim + if view.claim f = claim then 1 else 0) :
    Hall view clients (slots.insert ticket slot') (log ++ [.granted (view.key f) ticket]) held
      ledger' (queued - 1) := by
  have old : view.slot slots f = some slot := by rw [slot_of_ticket has, there]
  have new : view.slot (slots.insert ticket slot') f = some slot' := by
    rw [slot_of_ticket has, get_insert_self]
  refine hall.change a (hall.toRoom.grant found has (by simp [turn])) (fun _ _ => rfl)
    (hall.toRoom.slot_apart found has (get_insert_others _ _ _))
    (of_get found (live_insert has slot')) (of_get found fun done => ?_) (fun claim => ?_) ?_
  · have absent := hall.spent found done
    rw [old] at absent
    cases absent
  · rw [weight_some found old, weight_some found new, granted, granted, waits, turn, entered]
    simp only [and_true, decide_eq_true_eq, reduceCtorEq, and_false, decide_false,
      Bool.false_eq_true, if_false]
    omega
  · have counted := hall.queued_pos found old waits
    rw [weight_some found old, weight_some found new, waiting, waiting, waits, turn]
    simp only [decide_true, if_true, reduceCtorEq, decide_false, Bool.false_eq_true, if_false]
    omega

/-- A waiting client leaves its line and the hall. -/
theorem leave (found : clients[a]? = some f) (has : view.ticket f = some ticket)
    (there : slots[ticket]? = some slot) (waits : view.status slot = .waiting) :
    Hall view (clients.erase a) (slots.erase ticket) (log ++ [.left (view.key f) ticket]) held
      ledger (queued - 1) := by
  have old : view.slot slots f = some slot := by rw [slot_of_ticket has, there]
  have none_ : ∀ g, (clients.erase a)[a]? = some g → view.slot (slots.erase ticket) g = none :=
    of_get_erase
  refine hall.change a (hall.toRoom.leave found has)
    (get_erase_others _ _)
    (hall.toRoom.slot_apart found has (get_erase_others _ _))
    of_get_erase of_get_erase (fun claim => ?_) ?_
  · rw [weight_some found old, weight_none none_, granted, waits]
    simp
  · have counted := hall.queued_pos found old waits
    rw [weight_some found old, weight_none none_, waiting, waits]
    simp only [decide_true, if_true]
    omega

/-- The slot of a client that had its turn is given up; a granted claim is now held outside. -/
theorem vacate (found : clients[a]? = some f) (has : view.ticket f = some ticket)
    (there : slots[ticket]? = some slot) (turn : view.status slot ≠ .waiting)
    (others : ∀ b ≠ a, clients'[b]? = clients[b]?)
    (after : ∀ g, clients'[a]? = some g → view.key g = view.key f ∧
      view.ticket g = some ticket ∧ view.active g = false) :
    Hall view clients' (slots.erase ticket) log
      (if view.status slot = .granted then view.claim f :: held else held) ledger queued := by
  have old : view.slot slots f = some slot := by rw [slot_of_ticket has, there]
  have none_ : ∀ g, clients'[a]? = some g → view.slot (slots.erase ticket) g = none := by
    intro g atA
    rw [slot_of_ticket (after g atA).2.1, get_erase_self]
  have emptied := hall.toRoom.vacate found has there turn
  refine hall.change a ?_ others
    (hall.toRoom.slot_apart found has (get_erase_others _ _))
    ?_ (fun g atA _ => none_ g atA) (fun claim => ?_) ?_
  · cases atA : clients'[a]? with
    | none =>
      refine emptied.unslotted a others (of_get found ?_) fun g here => ?_
      · rw [slot_of_ticket has, get_erase_self]
      · rw [atA] at here
        cases here
    | some g =>
      refine emptied.congr (fun b => ?_) fun _ => rfl
      by_cases same : b = a
      · subst same
        rw [atA, found]
        simp [(after g atA).1, (after g atA).2.1, has]
      · rw [others b same]
  · intro g atA ticket' _ active
    rw [(after g atA).2.2] at active
    cases active
  · rw [weight_some found old, weight_none none_, granted]
    by_cases granted : view.status slot = .granted
    · rw [if_pos granted, List.count_cons]
      simp only [granted, and_true, decide_eq_true_eq, beq_iff_eq]
      omega
    · simp [granted]
  · rw [weight_some found old, weight_none none_, waiting]
    simp [turn]

end

omit [DecidableEq ν] in
/-- All who wait are sent away; the holders stay. -/
theorem disperse (hall : Hall view clients slots log held ledger queued) {tickets : List UInt64}
    (listed : ∀ ticket, ticket ∈ tickets ↔ ∃ key, ticket ∈ line key log) {turn : ω → ω}
    (closes : ∀ slot, view.status (turn slot) = .closed)
    (after : ∀ ticket : UInt64, slots'[ticket]? =
      if ticket ∈ tickets then slots[ticket]?.map turn else slots[ticket]?) :
    Hall view clients slots' (log ++ [.dispersed]) held ledger 0 := by
  -- A ticket is listed exactly if its client waits.
  have waits_iff : ∀ {a : ν} {f ticket slot}, clients[a]? = some f → view.ticket f = some ticket →
      slots[ticket]? = some slot → (ticket ∈ tickets ↔ view.status slot = .waiting) := by
    intro a f ticket slot found has there
    rw [listed]
    constructor
    · rintro ⟨key, here⟩
      obtain ⟨-, slot', there', waits⟩ := (hall.toRoom.mem_line_iff found has).mp here
      rw [there] at there'
      cases there'
      exact waits
    · intro waits
      exact ⟨view.key f, (hall.toRoom.mem_line_iff found has).mpr ⟨rfl, slot, there, waits⟩⟩
  have present : ∀ ticket : UInt64, slots'[ticket]?.isSome = slots[ticket]?.isSome := by
    intro ticket
    rw [after]
    split <;> simp
  have turned : ∀ (ticket : UInt64) slot, slots'[ticket]? = some slot →
      view.status slot ≠ .waiting := by
    intro ticket slot found
    rw [after] at found
    split at found
    · obtain ⟨old, -, rfl⟩ := Option.map_eq_some_iff.mp found
      simp [closes]
    · next unlisted =>
      obtain ⟨a, f, atA, has⟩ := hall.owned found
      exact fun waits => unlisted ((waits_iff atA has found).mpr waits)
  refine ⟨hall.toRoom.disperse present turned, ?_, ?_, fun claim => ?_, ?_⟩
  · intro a f ticket found has active
    obtain ⟨slot, there⟩ := hall.live found has active
    rw [← Option.isSome_iff_exists, present, there, Option.isSome_some]
  · intro a f found done
    have absent := hall.spent found done
    cases has : view.ticket f with
    | none => exact slot_of_none has
    | some ticket =>
      rw [slot_of_ticket has] at absent ⊢
      rw [after, absent]
      split <;> rfl
  · rw [← hall.books claim]
    congr 1
    refine count_congr_slots fun a f found => ?_
    cases has : view.ticket f with
    | none => rw [slot_of_none has, slot_of_none has]
    | some ticket =>
      rw [slot_of_ticket has, slot_of_ticket has, after]
      split
      · next here =>
        cases there : slots[ticket]? with
        | none => rfl
        | some slot =>
          have waits := (waits_iff found has there).mp here
          simp [granted, waits, closes]
      · rfl
  · refine count_eq_zero fun a f slot found there => ?_
    cases has : view.ticket f with
    | none =>
      rw [slot_of_none has] at there
      cases there
    | some ticket =>
      rw [slot_of_ticket has] at there
      simp [waiting, turned ticket slot there]

end Hall

end WaitingLines
