import Fireweed.Runs

/-!
# Waiting lines

Callers wait for a key in the order in which they joined its line. A log of what
happened determines every line, and it is fair if nobody is served before those
ahead of them. The callers themselves are clients that hold a ticket; the slots
under the tickets say whether a client still waits. A room is a set of clients
and slots that agrees with the lines of a log.
-/

namespace WaitingLines

open BTree List Runs Std

section Logs

variable {κ τ : Type} [DecidableEq κ] [DecidableEq τ]

inductive Event (κ τ : Type) where
  | joined (key : κ) (ticket : τ)
  /-- The ticket got its turn. -/
  | granted (key : κ) (ticket : τ)
  /-- A caller was served at once, without joining the line. -/
  | entered (key : κ)
  /-- The ticket gave up its place. -/
  | left (key : κ) (ticket : τ)
  /-- All lines were sent away. -/
  | dispersed
deriving DecidableEq

def Event.advance (key : κ) (line : List τ) : Event κ τ → List τ
  | .joined k ticket => if k = key then line ++ [ticket] else line
  | .granted k ticket | .left k ticket => if k = key then line.erase ticket else line
  | .entered _ => line
  | .dispersed => []

/-- Who waits for a key, in the order of joining. -/
def line (key : κ) (log : List (Event κ τ)) : List τ := log.foldl (Event.advance key) []

/-- Only the first in line gets its turn, and only an empty line lets a caller pass. -/
def Event.InTurn (past : List (Event κ τ)) : Event κ τ → Prop
  | .granted key ticket => (line key past).head? = some ticket
  | .entered key => line key past = []
  | .joined .. | .left .. | .dispersed => True

def Fair (log : List (Event κ τ)) : Prop :=
  ∀ past event rest, log = past ++ event :: rest → event.InTurn past

/-- How many tickets were handed out. -/
def joins (log : List (Event κ τ)) : Nat :=
  log.countP fun
    | .joined .. => true
    | _ => false

omit [DecidableEq κ] [DecidableEq τ] in
theorem joins_append (log more : List (Event κ τ)) : joins (log ++ more) = joins log + joins more :=
  countP_append

omit [DecidableEq κ] [DecidableEq τ] in
/-- The counter of tickets has not wrapped. -/
theorem toNat_next {log : List (Event κ τ)} {ticket : UInt64} (next : ticket = .ofNat (joins log))
    (few : joins log < 2 ^ 64) : ticket.toNat = joins log := by
  rw [next, UInt64.toNat_ofNat']
  exact Nat.mod_eq_of_lt few

theorem line_snoc (key : κ) (log : List (Event κ τ)) (event : Event κ τ) :
    line key (log ++ [event]) = event.advance key (line key log) := by
  rw [line, foldl_append]
  rfl

theorem fair_nil : Fair ([] : List (Event κ τ)) := by
  intro past event rest split
  simp at split

theorem Fair.snoc {log : List (Event κ τ)} (fair : Fair log) {event : Event κ τ}
    (turn : event.InTurn log) : Fair (log ++ [event]) :=
  splits_snoc fair turn

section Performed

variable {σ α ε ρ : Type} {perform : σ → α → Except ε (ρ × σ)} {log : σ → List (Event κ τ)}
  {s t : σ}

omit [DecidableEq κ] [DecidableEq τ]

/-- No action takes a ticket back. -/
theorem joins_le_of_performs {a : α} (appends : Appends log s (perform s a))
    (taken : Performs perform s a t) : joins (log s) ≤ joins (log t) := by
  obtain ⟨reply, performed⟩ := taken
  exact (appends reply t performed).sublist.countP_le

/-- What every action keeps while there are tickets left holds after a run that leaves some. -/
theorem keeps_of_few {P : σ → Prop} {limit : Nat} (start : P s)
    (appends : ∀ s a, Appends log s (perform s a))
    (keeps : ∀ s a, P s → joins (log s) < limit → ∃ reply t, perform s a = .ok (reply, t) ∧ P t)
    {actions : List α} (run : Run (Performs perform) s actions t) (few : joins (log t) < limit) :
    P t := by
  refine run.invariant (P := fun s => joins (log s) < limit → P s) (fun _ => start) ?_ few
  intro before action after kept taken few
  have fewBefore := Nat.lt_of_le_of_lt (joins_le_of_performs (appends before action) taken) few
  obtain ⟨reply, performed⟩ := taken
  obtain ⟨reply', after', performed', holds⟩ := keeps before action (kept fewBefore) fewBefore
  rw [performed] at performed'
  cases performed'
  exact holds

end Performed

end Logs

/-! ## Clients and slots -/

inductive Status where
  | waiting
  | granted
  | closed
deriving DecidableEq

/-- How a client and a slot are read. -/
structure View (κ γ φ ω : Type) where
  /-- The line of the client. -/
  key : φ → κ
  /-- What it holds once it got its turn. -/
  claim : φ → γ
  ticket : φ → Option UInt64
  /-- It will ask for its slot again. -/
  active : φ → Bool
  /-- Its slot has been given up. -/
  spent : φ → Bool
  status : ω → Status

section Rooms

variable {κ γ ν φ ω : Type} [DecidableEq κ] [Ord ν] [TransOrd ν]

/-- The slot of a client, if it has a ticket and the slot is still there. -/
def View.slot (view : View κ γ φ ω) (slots : BTreeMap UInt64 ω) (client : φ) : Option ω :=
  (view.ticket client).bind fun ticket => slots[ticket]?

/-- The clients whose slot passes a test. -/
def View.count (view : View κ γ φ ω) (clients : BTreeMap ν φ) (slots : BTreeMap UInt64 ω)
    (test : φ → ω → Bool) : Nat :=
  countWhere clients fun client => (view.slot slots client).any (test client)

/-- A client of this name waits for a key under a ticket. -/
def View.Waits (view : View κ γ φ ω) (clients : BTreeMap ν φ) (slots : BTreeMap UInt64 ω) (key : κ)
    (ticket : UInt64) (name : ν) : Prop :=
  ∃ client slot, clients[name]? = some client ∧ view.key client = key ∧
    view.ticket client = some ticket ∧ slots[ticket]? = some slot ∧ view.status slot = .waiting

structure Room (view : View κ γ φ ω) (clients : BTreeMap ν φ) (slots : BTreeMap UInt64 ω)
    (log : List (Event κ UInt64)) : Prop where
  distinct : ∀ {a b : ν} {f g ticket}, clients[a]? = some f → clients[b]? = some g →
    view.ticket f = some ticket → view.ticket g = some ticket → a = b
  owned : ∀ {ticket : UInt64} {slot}, slots[ticket]? = some slot →
    ∃ (a : ν) (f : φ), clients[a]? = some f ∧ view.ticket f = some ticket
  issued : ∀ {a : ν} {f ticket}, clients[a]? = some f → view.ticket f = some ticket →
    ticket.toNat < joins log
  lines : ∀ key ticket, ticket ∈ line key log ↔ ∃ a, view.Waits clients slots key ticket a
  nodup : ∀ key, (line key log).Nodup

open View

namespace Room

variable {view : View κ γ φ ω} {clients clients' : BTreeMap ν φ} {slots slots' : BTreeMap UInt64 ω}
  {log log' : List (Event κ UInt64)} {a : ν} {f g : φ} {ticket : UInt64} {slot slot' : ω} {key : κ}

theorem empty : Room view (∅ : BTreeMap ν φ) ∅ [] where
  distinct here := by simp at here
  owned here := by simp at here
  issued here := by simp at here
  lines key ticket := by simp [line, View.Waits]
  nodup key := .nil

section

variable (room : Room view clients slots log)

include room

/-- One client and its slot change. What has to be shown is about this client and its ticket. -/
theorem change (a : ν) (ticket : UInt64) (others : ∀ b ≠ a, clients'[b]? = clients[b]?)
    (apart : ∀ other ≠ ticket, slots'[other]? = slots[other]?)
    (before : ∀ b f, clients[b]? = some f → view.ticket f = some ticket → b = a)
    (own : ∀ f, clients[a]? = some f → ∀ other, view.ticket f = some other → other = ticket)
    (after : ∀ g, clients'[a]? = some g → ∀ other, view.ticket g = some other → other = ticket)
    (kept : ∀ slot, slots'[ticket]? = some slot →
      ∃ g, clients'[a]? = some g ∧ view.ticket g = some ticket)
    (issued : ∀ g, clients'[a]? = some g → view.ticket g = some ticket →
      ticket.toNat < joins log')
    (more : joins log ≤ joins log')
    (rest : ∀ key, ∀ other ≠ ticket, other ∈ line key log' ↔ other ∈ line key log)
    (here : ∀ key, ticket ∈ line key log' ↔ view.Waits clients' slots' key ticket a)
    (nodup : ∀ key, (line key log').Nodup) : Room view clients' slots' log' where
  distinct {b c f g other} atB atC ticketB ticketC := by
    by_cases sameB : b = a
    · by_cases sameC : c = a
      · rw [sameB, sameC]
      · subst sameB
        rw [others c sameC] at atC
        have := after f atB other ticketB
        subst this
        exact (before c g atC ticketC).symm
    · rw [others b sameB] at atB
      by_cases sameC : c = a
      · subst sameC
        have := after g atC other ticketC
        subst this
        exact before b f atB ticketB
      · rw [others c sameC] at atC
        exact room.distinct atB atC ticketB ticketC
  owned {other slot} found := by
    by_cases same : other = ticket
    · subst same
      obtain ⟨g, atA, has⟩ := kept slot found
      exact ⟨a, g, atA, has⟩
    · rw [apart other same] at found
      obtain ⟨b, f, atB, has⟩ := room.owned found
      have different : b ≠ a := by
        rintro rfl
        exact same (own f atB other has)
      exact ⟨b, f, by rw [others b different, atB], has⟩
  issued {b f other} atB has := by
    by_cases same : b = a
    · subst same
      have := after f atB other has
      subst this
      exact issued f atB has
    · rw [others b same] at atB
      exact Nat.lt_of_lt_of_le (room.issued atB has) more
  lines key other := by
    by_cases same : other = ticket
    · subst same
      rw [here]
      refine ⟨fun waits => ⟨a, waits⟩, ?_⟩
      rintro ⟨b, f, slot, atB, rest⟩
      by_cases same : b = a
      · subst same
        exact ⟨f, slot, atB, rest⟩
      · rw [others b same] at atB
        exact absurd (before b f atB rest.2.1) same
    · rw [rest key other same, room.lines]
      refine exists_congr fun b => ?_
      by_cases sameB : b = a
      · subst sameB
        constructor
        · rintro ⟨f, slot, atB, -, has, -⟩
          exact absurd (own f atB other has) same
        · rintro ⟨f, slot, atB, -, has, -⟩
          exact absurd (after f atB other has) same
      · simp only [View.Waits, others b sameB, apart other same]
  nodup := nodup

/-- The ticket of a client is in no other line and in its own only while it waits. -/
theorem mem_line_iff (found : clients[a]? = some f) (has : view.ticket f = some ticket) :
    ticket ∈ line key log ↔
      view.key f = key ∧ ∃ slot, slots[ticket]? = some slot ∧ view.status slot = .waiting := by
  rw [room.lines]
  constructor
  · rintro ⟨b, g, slot, atB, keyed, hasB, rest⟩
    obtain rfl := room.distinct found atB has hasB
    rw [found] at atB
    cases atB
    exact ⟨keyed, slot, rest⟩
  · rintro ⟨keyed, slot, rest⟩
    exact ⟨a, f, slot, found, keyed, has, rest⟩

/-- A room reads the key and ticket of its clients and the status of its slots only. -/
theorem congr
    (sameClients : ∀ b : ν, clients'[b]?.map (fun f => (view.key f, view.ticket f)) =
      clients[b]?.map fun f => (view.key f, view.ticket f))
    (sameSlots : ∀ ticket : UInt64, slots'[ticket]?.map view.status =
      slots[ticket]?.map view.status) : Room view clients' slots' log := by
  have client : ∀ (b : ν) (key : κ) (ticket : Option UInt64),
      (∃ f, clients'[b]? = some f ∧ view.key f = key ∧ view.ticket f = ticket) ↔
        ∃ f, clients[b]? = some f ∧ view.key f = key ∧ view.ticket f = ticket := by
    intro b key ticket
    have read := congrArg (· = some (key, ticket)) (sameClients b)
    simpa [Option.map_eq_some_iff] using read
  have slot : ∀ (ticket : UInt64) (status : Status),
      (∃ slot, slots'[ticket]? = some slot ∧ view.status slot = status) ↔
        ∃ slot, slots[ticket]? = some slot ∧ view.status slot = status := by
    intro ticket status
    have read := congrArg (· = some status) (sameSlots ticket)
    simpa [Option.map_eq_some_iff] using read
  refine ⟨?_, ?_, ?_, ?_, room.nodup⟩
  · intro a b f g ticket atA atB hasA hasB
    obtain ⟨f', oldA, -, hasA'⟩ := (client a _ _).mp ⟨f, atA, rfl, hasA⟩
    obtain ⟨g', oldB, -, hasB'⟩ := (client b _ _).mp ⟨g, atB, rfl, hasB⟩
    exact room.distinct oldA oldB hasA' hasB'
  · intro ticket w found
    obtain ⟨w', old, -⟩ := (slot ticket _).mp ⟨w, found, rfl⟩
    obtain ⟨b, f, atB, has⟩ := room.owned old
    obtain ⟨g, new, -, has'⟩ := (client b _ _).mpr ⟨f, atB, rfl, has⟩
    exact ⟨b, g, new, has'⟩
  · intro b f ticket atB has
    obtain ⟨f', old, -, has'⟩ := (client b _ _).mp ⟨f, atB, rfl, has⟩
    exact room.issued old has'
  · intro key ticket
    rw [room.lines]
    refine exists_congr fun b => ?_
    constructor
    · rintro ⟨f, w, atB, keyed, has, found, waits⟩
      obtain ⟨f', new, keyed', has'⟩ := (client b _ _).mpr ⟨f, atB, keyed, has⟩
      obtain ⟨w', found', waits'⟩ := (slot ticket _).mpr ⟨w, found, waits⟩
      exact ⟨f', w', new, keyed', has', found', waits'⟩
    · rintro ⟨f, w, atB, keyed, has, found, waits⟩
      obtain ⟨f', old, keyed', has'⟩ := (client b _ _).mp ⟨f, atB, keyed, has⟩
      obtain ⟨w', found', waits'⟩ := (slot ticket _).mp ⟨w, found, waits⟩
      exact ⟨f', w', old, keyed', has', found', waits'⟩

/-- A log with the same lines has the same rooms. -/
theorem relog (lines : ∀ key, line key log' = line key log) (more : joins log ≤ joins log') :
    Room view clients slots log' where
  distinct := room.distinct
  owned := room.owned
  issued here has := Nat.lt_of_lt_of_le (room.issued here has) more
  lines key ticket := by rw [lines, room.lines]
  nodup key := by
    rw [lines]
    exact room.nodup key

/-- A client without a slot comes or goes. -/
theorem unslotted (a : ν) (others : ∀ b ≠ a, clients'[b]? = clients[b]?)
    (before : ∀ f, clients[a]? = some f → view.slot slots f = none)
    (after : ∀ g, clients'[a]? = some g → view.ticket g = none) : Room view clients' slots log := by
  have kept : ∀ (b : ν) f ticket, clients'[b]? = some f → view.ticket f = some ticket →
      clients[b]? = some f := by
    intro b f ticket atB has
    rw [← others b ?_, atB]
    rintro rfl
    rw [after f atB] at has
    cases has
  have stays : ∀ (b : ν) f ticket w, clients[b]? = some f → view.ticket f = some ticket →
      slots[ticket]? = some w → clients'[b]? = some f := by
    intro b f ticket w atB has found
    rw [others b ?_, atB]
    rintro rfl
    have absent := before f atB
    rw [slot, has, Option.bind_some, found] at absent
    cases absent
  refine ⟨?_, ?_, ?_, ?_, room.nodup⟩
  · intro a b f g ticket atA atB hasA hasB
    exact room.distinct (kept a f ticket atA hasA) (kept b g ticket atB hasB) hasA hasB
  · intro ticket w found
    obtain ⟨b, f, atB, has⟩ := room.owned found
    exact ⟨b, f, stays b f ticket w atB has found, has⟩
  · intro b f ticket atB has
    exact room.issued (kept b f ticket atB has) has
  · intro key ticket
    rw [room.lines]
    refine exists_congr fun b => ?_
    constructor
    · rintro ⟨f, w, atB, keyed, has, found, waits⟩
      exact ⟨f, w, stays b f ticket w atB has found, keyed, has, found, waits⟩
    · rintro ⟨f, w, atB, keyed, has, found, waits⟩
      exact ⟨f, w, kept b f ticket atB has, keyed, has, found, waits⟩

/-- No client and no slot has the next ticket. -/
theorem fresh (next : ticket.toNat = joins log) :
    (∀ (b : ν) f, clients[b]? = some f → view.ticket f ≠ some ticket) ∧ slots[ticket]? = none := by
  have unused : ∀ (b : ν) f, clients[b]? = some f → view.ticket f ≠ some ticket := by
    intro b f atB has
    have := room.issued atB has
    omega
  refine ⟨unused, ?_⟩
  cases found : slots[ticket]? with
  | none => rfl
  | some w =>
    obtain ⟨b, f, atB, has⟩ := room.owned found
    exact absurd has (unused b f atB)

/-- A client without a ticket joins a line under the next one. -/
theorem join [LawfulEqOrd ν] (found : clients[a]? = some f) (none_ : view.ticket f = none)
    (has : view.ticket g = some ticket) (next : ticket.toNat = joins log)
    (waits : view.status slot = .waiting) :
    Room view (clients.insert a g) (slots.insert ticket slot)
      (log ++ [.joined (view.key g) ticket]) := by
  obtain ⟨unused, absent⟩ := room.fresh next
  have out : ∀ key, ticket ∉ line key log := by
    intro key here
    obtain ⟨b, f, w, atB, -, has, -⟩ := (room.lines key ticket).mp here
    exact unused b f atB has
  have joined : joins (log ++ [.joined (view.key g) ticket]) = joins log + 1 := joins_append ..
  refine room.change a ticket ?_ ?_ ?_ ?_ ?_ ?_ ?_ ?_ ?_ ?_ ?_
  · exact get_insert_others _ _ _
  · exact get_insert_others _ _ _
  · exact fun b f atB has => absurd has (unused b f atB)
  · refine of_get found fun other has' => ?_
    rw [none_] at has'
    cases has'
  · exact of_get_insert fun other has' => Option.some.inj (has'.symm.trans has)
  · exact fun _ _ => ⟨g, get_insert_self .., has⟩
  · intro g' atA has'
    omega
  · omega
  · intro key other different
    rw [line_snoc, Event.advance]
    split
    · simp [different]
    · exact Iff.rfl
  · intro key
    rw [line_snoc, Event.advance]
    constructor
    · intro here
      split at here
      · next keyed => exact ⟨g, slot, get_insert_self .., keyed, has, get_insert_self .., waits⟩
      · exact absurd here (out key)
    · rintro ⟨g', w, atA, keyed, -⟩
      rw [get_insert_self] at atA
      cases atA
      rw [if_pos keyed]
      simp
  · intro key
    rw [line_snoc, Event.advance]
    split
    · exact nodup_append'.mpr ⟨room.nodup key, nodup_singleton _, by simpa using out key⟩
    · exact room.nodup key

/-- What a ticket that leaves its line leaves behind. -/
theorem line_without (key k : κ) (ticket : UInt64) :
    (if k = key then (line key log).erase ticket else line key log).Nodup ∧
      ∀ other ≠ ticket, other ∈ (if k = key then (line key log).erase ticket else line key log) ↔
        other ∈ line key log := by
  split
  · refine ⟨(room.nodup key).erase ticket, fun other different => ?_⟩
    rw [(room.nodup key).mem_erase_iff]
    exact ⟨fun here => here.2, fun here => ⟨different, here⟩⟩
  · exact ⟨room.nodup key, fun _ _ => Iff.rfl⟩

end

section

variable (room : Room view clients slots log) (found : clients[a]? = some f)
  (has : view.ticket f = some ticket)

include room found has

omit room [DecidableEq κ] in
/-- A client has its ticket only. -/
theorem ticket_only (g : φ) (atA : clients[a]? = some g) (other : UInt64)
    (has' : view.ticket g = some other) : other = ticket := by
  cases found.symm.trans atA
  exact Option.some.inj (has'.symm.trans has)

/-- A ticket is in no line that it has left. -/
theorem not_mem_line_without (key : κ) :
    ticket ∉ (if view.key f = key then (line key log).erase ticket else line key log) := by
  split
  · exact fun here => ((room.nodup key).mem_erase_iff.mp here).1 rfl
  · next other =>
    exact fun here => other ((room.mem_line_iff found has).mp here).1

theorem grant (turn : view.status slot ≠ .waiting) :
    Room view clients (slots.insert ticket slot) (log ++ [.granted (view.key f) ticket]) := by
  have joined : joins (log ++ [.granted (view.key f) ticket]) = joins log := joins_append ..
  refine room.change a ticket (fun _ _ => rfl)
    (get_insert_others _ _ _) ?_ (ticket_only found has) (ticket_only found has)
    (fun _ _ => ⟨f, found, has⟩) ?_ (by omega) ?_ ?_ ?_
  · exact fun b g atB hasB => room.distinct atB found hasB has
  · intro g atA has'
    rw [joined]
    exact room.issued found has
  · intro key other different
    rw [line_snoc]
    exact (room.line_without key _ ticket).2 other different
  · intro key
    rw [line_snoc]
    refine iff_of_false (room.not_mem_line_without found has key) ?_
    rintro ⟨g, w, -, -, -, atTicket, waits⟩
    rw [get_insert_self] at atTicket
    cases atTicket
    exact turn waits
  · intro key
    rw [line_snoc]
    exact (room.line_without key _ ticket).1

/-- A client leaves its line and the room. -/
theorem leave [LawfulEqOrd ν] :
    Room view (clients.erase a) (slots.erase ticket) (log ++ [.left (view.key f) ticket]) := by
  have joined : joins (log ++ [.left (view.key f) ticket]) = joins log := joins_append ..
  refine room.change a ticket (get_erase_others _ _)
    (get_erase_others _ _) ?_ (ticket_only found has) of_get_erase of_get_erase of_get_erase
    (by omega) ?_ ?_ ?_
  · exact fun b g atB hasB => room.distinct atB found hasB has
  · intro key other different
    rw [line_snoc]
    exact (room.line_without key _ ticket).2 other different
  · intro key
    rw [line_snoc]
    refine iff_of_false (room.not_mem_line_without found has key) ?_
    exact fun ⟨g, w, atA, _⟩ => get_erase_self_ne _ _ g atA
  · intro key
    rw [line_snoc]
    exact (room.line_without key _ ticket).1

/-- The slot of a client that does not wait is given up. -/
theorem vacate (there : slots[ticket]? = some slot) (turn : view.status slot ≠ .waiting) :
    Room view clients (slots.erase ticket) log := by
  refine room.change a ticket (fun _ _ => rfl)
    (get_erase_others _ _) ?_ (ticket_only found has) (ticket_only found has)
    of_get_erase ?_ (Nat.le_refl _) (fun _ _ _ => Iff.rfl) ?_ room.nodup
  · exact fun b g atB hasB => room.distinct atB found hasB has
  · exact fun g _ _ => room.issued found has
  · intro key
    refine iff_of_false ?_ ?_
    · rw [room.mem_line_iff found has]
      rintro ⟨-, w, atTicket, waits⟩
      rw [there] at atTicket
      cases atTicket
      exact turn waits
    · rintro ⟨g, w, -, -, -, atTicket, -⟩
      exact get_erase_self_ne _ _ w atTicket

end

/-- All who wait are sent away. -/
theorem disperse (room : Room view clients slots log)
    (present : ∀ ticket : UInt64, slots'[ticket]?.isSome = slots[ticket]?.isSome)
    (turned : ∀ (ticket : UInt64) slot, slots'[ticket]? = some slot →
      view.status slot ≠ .waiting) : Room view clients slots' (log ++ [.dispersed]) where
  distinct := room.distinct
  owned {ticket slot} found := by
    have there := present ticket
    rw [found, Option.isSome_some, eq_comm, Option.isSome_iff_exists] at there
    obtain ⟨w, old⟩ := there
    exact room.owned old
  issued found has := Nat.lt_of_lt_of_le (room.issued found has) (by simp [joins_append])
  lines key ticket := by
    rw [line_snoc, Event.advance]
    refine iff_of_false (not_mem_nil) ?_
    rintro ⟨b, f, w, -, -, -, found, waits⟩
    exact turned ticket w found waits
  nodup key := by
    rw [line_snoc, Event.advance]
    exact .nil

end Room

/-! ## Counting -/

variable {view : View κ γ φ ω} {clients clients' : BTreeMap ν φ}
  {slots slots' : BTreeMap UInt64 ω} {log : List (Event κ UInt64)}

/-- One if the client of a name has a slot that passes. -/
def View.weight (view : View κ γ φ ω) (clients : BTreeMap ν φ) (slots : BTreeMap UInt64 ω)
    (test : φ → ω → Bool) (a : ν) : Nat :=
  if clients[a]?.any (fun client => (view.slot slots client).any (test client)) then 1 else 0

variable {test : φ → ω → Bool} {f : φ}

omit [DecidableEq κ] in
theorem View.weight_some {a : ν} {slot : ω} (found : clients[a]? = some f)
    (there : view.slot slots f = some slot) :
    view.weight clients slots test a = if test f slot then 1 else 0 := by
  rw [weight, found, Option.any_some, there, Option.any_some]

omit [DecidableEq κ] in
theorem View.weight_none {a : ν} (absent : ∀ f, clients[a]? = some f → view.slot slots f = none) :
    view.weight clients slots test a = 0 := by
  rw [weight]
  cases found : clients[a]? with
  | none => rfl
  | some f =>
    rw [Option.any_some, absent f found]
    rfl

omit [DecidableEq κ] in
theorem View.slot_of_ticket {ticket : UInt64} (has : view.ticket f = some ticket) :
    view.slot slots f = slots[ticket]? := by
  rw [slot, has, Option.bind_some]

omit [DecidableEq κ] in
theorem View.slot_of_none (none_ : view.ticket f = none) : view.slot slots f = none := by
  rw [slot, none_, Option.bind_none]

omit [DecidableEq κ] in
@[simp] theorem View.count_empty (test : φ → ω → Bool) :
    view.count (∅ : BTreeMap ν φ) slots test = 0 := by
  simp [count, countWhere]

omit [DecidableEq κ] in
theorem View.count_change [LawfulEqOrd ν] [DecidableEq ν] (slots' : BTreeMap UInt64 ω)
    (test : φ → ω → Bool) (a : ν) (others : ∀ b ≠ a, clients'[b]? = clients[b]?)
    (apart : ∀ b ≠ a, ∀ f, clients[b]? = some f → view.slot slots' f = view.slot slots f) :
    view.count clients' slots' test + view.weight clients slots test a =
      view.count clients slots test + view.weight clients' slots' test a := by
  have rest : countWhere (clients'.erase a)
      (fun client => (view.slot slots' client).any (test client)) =
      countWhere (clients.erase a) (fun client => (view.slot slots client).any (test client)) := by
    refine countWhere_congr fun b => ?_
    rw [get_erase, get_erase]
    split
    · rfl
    · next different =>
      rw [others b (Ne.symm different)]
      cases found : clients[b]? with
      | none => rfl
      | some f =>
        simp only [Option.any_some]
        rw [apart b (Ne.symm different) f found]
  rw [count, count, countWhere_erase clients' a, countWhere_erase clients a, rest, weight, weight]
  omega

omit [DecidableEq κ] in
theorem View.weight_le_count [LawfulEqOrd ν] [DecidableEq ν] (clients : BTreeMap ν φ)
    (slots : BTreeMap UInt64 ω) (test : φ → ω → Bool) (a : ν) :
    view.weight clients slots test a ≤ view.count clients slots test := by
  rw [weight, count, countWhere_erase clients a]
  exact Nat.le_add_left ..

omit [DecidableEq κ] in
theorem View.count_eq_zero [LawfulEqOrd ν]
    (fails : ∀ (a : ν) f slot, clients[a]? = some f → view.slot slots f = some slot →
      test f slot = false) : view.count clients slots test = 0 := by
  rw [count, ← length_keysWhere, length_eq_zero_iff, eq_nil_iff_forall_not_mem]
  intro a here
  rw [mem_keysWhere, Option.any_eq_true] at here
  obtain ⟨f, found, passes⟩ := here
  rw [Option.any_eq_true] at passes
  obtain ⟨slot, there, passes⟩ := passes
  rw [fails a f slot found there] at passes
  cases passes

omit [DecidableEq κ] in
theorem View.count_congr_slots [LawfulEqOrd ν] (same : ∀ (a : ν) f, clients[a]? = some f →
      (view.slot slots' f).any (test f) = (view.slot slots f).any (test f)) :
    view.count clients slots' test = view.count clients slots test := by
  refine countWhere_congr fun a => ?_
  cases found : clients[a]? with
  | none => rfl
  | some f => exact same a f found

/-- A slot that changes under one client is that of no other. -/
theorem Room.slot_apart (room : Room view clients slots log) {a : ν} {ticket : UInt64}
    (found : clients[a]? = some f) (has : view.ticket f = some ticket)
    (apart : ∀ other ≠ ticket, slots'[other]? = slots[other]?) :
    ∀ b ≠ a, ∀ g, clients[b]? = some g → view.slot slots' g = view.slot slots g := by
  intro b different g atB
  rw [slot, slot]
  cases hasB : view.ticket g with
  | none => rfl
  | some other =>
    refine apart other ?_
    rintro rfl
    exact different (room.distinct atB found hasB has)

/-- A line is as long as there are clients that wait for its key. -/
theorem Room.length_line [LawfulEqOrd ν] (room : Room view clients slots log) (key : κ) :
    (line key log).length = view.count clients slots fun client slot =>
      view.key client = key ∧ view.status slot = .waiting := by
  let ticketOf : ν → UInt64 := fun a => (clients[a]?.bind view.ticket).getD 0
  let test : φ → Bool := fun client => (view.slot slots client).any fun slot =>
    view.key client = key ∧ view.status slot = .waiting
  have ticket_eq : ∀ {a ticket}, view.Waits clients slots key ticket a → ticketOf a = ticket := by
    rintro a ticket ⟨f, slot, found, -, has, -⟩
    simp only [ticketOf, found, Option.bind_some, has, Option.getD_some]
  have passes : ∀ a, a ∈ keysWhere clients test ↔
      ∃ ticket, view.Waits clients slots key ticket a := by
    intro a
    rw [mem_keysWhere, Option.any_eq_true]
    simp only [test, Option.any_eq_true, View.slot, Option.bind_eq_some_iff, decide_eq_true_eq]
    constructor
    · rintro ⟨f, found, slot, ⟨ticket, has, there⟩, keyed, waits⟩
      exact ⟨ticket, f, slot, found, keyed, has, there, waits⟩
    · rintro ⟨ticket, f, slot, found, keyed, has, there, waits⟩
      exact ⟨f, found, slot, ⟨ticket, has, there⟩, keyed, waits⟩
  have listed : (line key log).Perm ((keysWhere clients test).map ticketOf) := by
    refine (perm_ext_iff_of_nodup (room.nodup key) ?_).mpr fun ticket => ?_
    · refine Nodup.map_on ?_ (nodup_keysWhere ..)
      intro a atA b atB same
      obtain ⟨ticket, waitsA⟩ := (passes a).mp atA
      obtain ⟨ticket', waitsB⟩ := (passes b).mp atB
      rw [ticket_eq waitsA, ticket_eq waitsB] at same
      subst same
      obtain ⟨f, -, foundA, -, hasA, -⟩ := waitsA
      obtain ⟨g, -, foundB, -, hasB, -⟩ := waitsB
      exact room.distinct foundA foundB hasA hasB
    · rw [room.lines, mem_map]
      constructor
      · rintro ⟨a, waits⟩
        exact ⟨a, (passes a).mpr ⟨ticket, waits⟩, ticket_eq waits⟩
      · rintro ⟨a, here, rfl⟩
        obtain ⟨ticket, waits⟩ := (passes a).mp here
        rw [ticket_eq waits]
        exact ⟨a, waits⟩
  rw [View.count, ← length_keysWhere, listed.length_eq, length_map]

end Rooms

end WaitingLines
