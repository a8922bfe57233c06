import Fireweed.QueueContract.Records

/-!
# The byte budget of a claim response

A claim answers with as many records as fit in a byte limit. The budget keeps
the bytes of the included records and their number; the count prefix is measured
anew for every candidate.
-/

namespace QueueContract

open Checked Postcard

structure ClaimedWork where
  record : WorkRecord
  lease : LeaseCredential
deriving DecidableEq

instance : Serialize WorkRecord :=
  ⟨fun r => serialize r.work ++ serialize r.version ++ serialize r.insertionSequence ++
    serialize r.lifecycle ++ serialize r.eligibleSince ++ serialize r.attempts ++
    serialize r.leaseExpiresAt⟩

instance : Serialize ClaimedWork := ⟨fun c => serialize c.record ++ serialize c.lease⟩

/-- The canonical length of a value; the writer counts in 64 bits. -/
def encodedLen {α : Type} [Serialize α] (value : α) : QueueResult UInt64 := do
  rejectIf (decide (2 ^ 64 ≤ (serialize value).length)) (invalid "canonical encoding failed")
  .ok (UInt64.ofNat (serialize value).length)

end QueueContract

namespace QueueClaim

open Checked Postcard QueueContract

/-- `checked_add`, with the error of the budget. -/
def checkedAdd (a b : UInt64) : QueueResult UInt64 := do
  rejectIf (decide (2 ^ 64 ≤ a.toNat + b.toNat)) .tooLarge
  .ok (a + b)

structure ClaimResponseBudget where
  maxBytes : UInt64
  elementBytes : UInt64
  records : UInt64
deriving DecidableEq

namespace ClaimResponseBudget

def new (maxBytes : UInt64) : QueueResult ClaimResponseBudget := do
  let empty ← encodedLen (0 : UInt64)
  rejectIf (decide (maxBytes < empty)) .tooLarge
  .ok ⟨maxBytes, 0, 0⟩

/-- What the budget would hold with the record, and the bytes of that response. -/
def extended (self : ClaimResponseBudget) (record : ClaimedWork) :
    QueueResult (ClaimResponseBudget × UInt64) := do
  let records ← checkedAdd self.records 1
  let elements ← checkedAdd self.elementBytes (← encodedLen record)
  let total ← checkedAdd elements (← encodedLen records)
  .ok (⟨self.maxBytes, elements, records⟩, total)

/-- Include a record if the response still fits; the budget is updated in place. -/
def tryInclude (self : ClaimResponseBudget) (record : ClaimedWork) :
    QueueResult Bool × ClaimResponseBudget :=
  match self.extended record with
  | .error e => (.error e, self)
  | .ok (next, total) => if self.maxBytes < total then (.ok false, self) else (.ok true, next)

def encodedBytes (self : ClaimResponseBudget) : QueueResult UInt64 := do
  checkedAdd self.elementBytes (← encodedLen self.records)

/-- A record is offered; the included ones are remembered. -/
def offer (state : ClaimResponseBudget × List ClaimedWork) (record : ClaimedWork) :
    ClaimResponseBudget × List ClaimedWork :=
  let answer := state.1.tryInclude record
  (answer.2, if answer.1 = .ok true then state.2 ++ [record] else state.2)

/-- What remains after a sequence of offers. -/
def offers (self : ClaimResponseBudget) (records : List ClaimedWork) :
    ClaimResponseBudget × List ClaimedWork :=
  records.foldl offer (self, [])

end ClaimResponseBudget

/-! ## Lengths -/

theorem exists_toNat {n : Nat} (fits : n < 2 ^ 64) : ∃ u : UInt64, u.toNat = n :=
  ⟨UInt64.ofNat n, UInt64.toNat_ofNat_of_lt' fits⟩

theorem encodedLen_eq_ok {α : Type} [Serialize α] {value : α} {n : UInt64} :
    encodedLen value = .ok n ↔ n.toNat = (serialize value).length := by
  rw [encodedLen, check_bind_eq_ok, rejectIf_eq_ok, decide_eq_false_iff_not, Except.ok.injEq,
    not_le]
  constructor
  · rintro ⟨fits, rfl⟩
    exact UInt64.toNat_ofNat_of_lt fits
  · intro measured
    rw [← measured]
    exact ⟨n.toNat_lt, UInt64.ofNat_toNat⟩

theorem checkedAdd_eq_ok {a b c : UInt64} :
    checkedAdd a b = .ok c ↔ c.toNat = a.toNat + b.toNat := by
  rw [checkedAdd, check_bind_eq_ok, rejectIf_eq_ok, decide_eq_false_iff_not, Except.ok.injEq,
    not_le]
  constructor
  · rintro ⟨fits, rfl⟩
    rw [UInt64.toNat_add]
    exact Nat.mod_eq_of_lt fits
  · intro added
    have fits : a.toNat + b.toNat < 2 ^ 64 := added ▸ c.toNat_lt
    refine ⟨fits, UInt64.toNat_inj.mp ?_⟩
    rw [UInt64.toNat_add, added]
    exact Nat.mod_eq_of_lt fits

theorem varint_ne_nil (n : Nat) : varint n ≠ [] := by
  rw [varint, varintWithin]
  split_ifs <;> simp

theorem serialize_claimedWork_pos (record : ClaimedWork) : 0 < (serialize record).length := by
  rw [List.length_pos_iff]
  simp [serialize, varint_ne_nil]

theorem serialize_snoc_length (included : List ClaimedWork) (record : ClaimedWork) :
    (serialize (included ++ [record])).length = (varint (included.length + 1)).length +
      ((included.map fun r => (serialize r).length).sum + (serialize record).length) := by
  rw [serialize_list_length, List.length_append, List.map_append, List.sum_append]
  simp

theorem length_le_sum (included : List ClaimedWork) :
    included.length ≤ (included.map fun r => (serialize r).length).sum := by
  induction included with
  | nil => simp
  | cons record included ih =>
    have one := serialize_claimedWork_pos record
    rw [List.length_cons, List.map_cons, List.sum_cons]
    omega

/-! ## The invariant -/

/-- The budget counts the included records, and their response fits. -/
structure Tracks (budget : ClaimResponseBudget) (included : List ClaimedWork) : Prop where
  records : budget.records.toNat = included.length
  elements : budget.elementBytes.toNat = (included.map fun r => (serialize r).length).sum
  fits : (serialize included).length ≤ budget.maxBytes.toNat

namespace Tracks

variable {budget : ClaimResponseBudget} {included : List ClaimedWork}

theorem encodedBytes (tracks : Tracks budget included) :
    ∃ bytes, budget.encodedBytes = .ok bytes ∧ bytes.toNat = (serialize included).length := by
  have limit := budget.maxBytes.toNat_lt
  have fits := tracks.fits
  have shape := serialize_list_length included
  obtain ⟨bytes, measured⟩ := exists_toNat (lt_of_le_of_lt fits limit)
  obtain ⟨count, counted⟩ : ∃ count : UInt64, count.toNat = (varint included.length).length :=
    exists_toNat (by omega)
  have prefixed : encodedLen budget.records = .ok count := by
    rw [encodedLen_eq_ok, counted, ← tracks.records]
    rfl
  refine ⟨bytes, bind_eq_ok.mpr ⟨count, prefixed, checkedAdd_eq_ok.mpr ?_⟩, measured⟩
  rw [measured, counted, tracks.elements]
  omega

/-- What the measures of the extended response are. -/
theorem extended (tracks : Tracks budget included) {record : ClaimedWork}
    {next : ClaimResponseBudget} {total : UInt64} :
    budget.extended record = .ok (next, total) ↔
      next.maxBytes = budget.maxBytes ∧ next.records.toNat = included.length + 1 ∧
      next.elementBytes.toNat =
        (included.map fun r => (serialize r).length).sum + (serialize record).length ∧
      total.toNat = (serialize (included ++ [record])).length := by
  have unit : (1 : UInt64).toNat = 1 := rfl
  simp only [ClaimResponseBudget.extended, bind_eq_ok, encodedLen_eq_ok, checkedAdd_eq_ok, unit,
    tracks.records, tracks.elements, serialize_snoc_length]
  constructor
  · rintro ⟨records, counted, len, measured, elements, added, count, prefixed, bytes, summed, same⟩
    cases same
    have width : (serialize records).length = (varint records.toNat).length := rfl
    rw [width, counted] at prefixed
    refine ⟨rfl, counted, by rw [added, measured], ?_⟩
    rw [summed, prefixed, added, measured]
    exact Nat.add_comm _ _
  · obtain ⟨maxBytes, elements, records⟩ := next
    rintro ⟨rfl, counted, added, summed⟩
    have limit := total.toNat_lt
    have width : (serialize records).length = (varint records.toNat).length := rfl
    obtain ⟨len, measured⟩ : ∃ len : UInt64, len.toNat = (serialize record).length :=
      exists_toNat (by omega)
    obtain ⟨count, prefixed⟩ : ∃ count : UInt64, count.toNat = (serialize records).length :=
      exists_toNat (by rw [width, counted]; omega)
    refine ⟨records, counted, len, measured, elements, by rw [added, measured], count, prefixed,
      total, ?_, rfl⟩
    rw [summed, prefixed, added, width, counted]
    exact Nat.add_comm _ _

/-- A record is included exactly when the response with it fits, and otherwise nothing changes. -/
theorem tryInclude (tracks : Tracks budget included) (record : ClaimedWork) :
    (∃ next, budget.tryInclude record = (.ok true, next) ∧ next.maxBytes = budget.maxBytes ∧
      Tracks next (included ++ [record])) ∨
    ((budget.tryInclude record).1 ≠ .ok true ∧ (budget.tryInclude record).2 = budget ∧
      budget.maxBytes.toNat < (serialize (included ++ [record])).length) := by
  cases measures : budget.extended record with
  | error e =>
    have answer : budget.tryInclude record = (.error e, budget) := by
      rw [ClaimResponseBudget.tryInclude, measures]
    refine .inr ⟨by simp [answer], by rw [answer], ?_⟩
    by_contra fits
    rw [not_lt] at fits
    -- a response that fits has measures, also the count: every record takes a byte
    have limit := budget.maxBytes.toNat_lt
    have shape := serialize_snoc_length included record
    have each := length_le_sum included
    have one := serialize_claimedWork_pos record
    obtain ⟨records, counted⟩ : ∃ u : UInt64, u.toNat = included.length + 1 :=
      exists_toNat (by omega)
    obtain ⟨elements, added⟩ : ∃ u : UInt64, u.toNat =
        (included.map fun r => (serialize r).length).sum + (serialize record).length :=
      exists_toNat (by omega)
    obtain ⟨total, summed⟩ := exists_toNat (lt_of_le_of_lt fits limit)
    have found : budget.extended record = .ok (⟨budget.maxBytes, elements, records⟩, total) :=
      tracks.extended.mpr ⟨rfl, counted, added, summed⟩
    rw [measures] at found
    cases found
  | ok measured =>
    obtain ⟨next, total⟩ := measured
    obtain ⟨same, counted, added, summed⟩ := tracks.extended.mp measures
    by_cases over_ : budget.maxBytes < total
    · have answer : budget.tryInclude record = (.ok false, budget) := by
        rw [ClaimResponseBudget.tryInclude, measures]
        exact if_pos over_
      refine .inr ⟨by simp [answer], by rw [answer], ?_⟩
      rw [← summed]
      exact UInt64.lt_iff_toNat_lt.mp over_
    · have answer : budget.tryInclude record = (.ok true, next) := by
        rw [ClaimResponseBudget.tryInclude, measures]
        exact if_neg over_
      refine .inl ⟨next, answer, same, ?_, ?_, ?_⟩
      · simpa using counted
      · simpa using added
      · rw [same, ← summed]
        exact UInt64.le_iff_toNat_le.mp (UInt64.not_lt.mp over_)

end Tracks

theorem tracks_new {maxBytes : UInt64} {budget : ClaimResponseBudget}
    (opened : ClaimResponseBudget.new maxBytes = .ok budget) :
    budget.maxBytes = maxBytes ∧ Tracks budget [] := by
  obtain ⟨empty, measured, opened⟩ := bind_eq_ok.mp opened
  obtain ⟨small, same⟩ := check_bind_eq_ok.mp opened
  rw [rejectIf_eq_ok, decide_eq_false_iff_not, UInt64.not_lt] at small
  cases same
  refine ⟨rfl, rfl, rfl, ?_⟩
  have one : empty.toNat = (serialize ([] : List ClaimedWork)).length :=
    encodedLen_eq_ok.mp measured
  rw [← one]
  exact UInt64.le_iff_toNat_le.mp small

/-- The invariant holds after every sequence of offers. -/
theorem Tracks.offers {budget : ClaimResponseBudget} (start : Tracks budget [])
    (offered : List ClaimedWork) :
    (budget.offers offered).1.maxBytes = budget.maxBytes ∧
      Tracks (budget.offers offered).1 (budget.offers offered).2 := by
  induction offered using List.reverseRecOn with
  | nil => exact ⟨rfl, start⟩
  | append_singleton offered record ih =>
    obtain ⟨same, tracks⟩ := ih
    have last : budget.offers (offered ++ [record]) =
        ClaimResponseBudget.offer (budget.offers offered) record := by
      simp [ClaimResponseBudget.offers]
    rw [last, ClaimResponseBudget.offer]
    rcases tracks.tryInclude record with ⟨next, answer, kept, tracks'⟩ | ⟨refused, kept, -⟩
    · simp only [answer, if_true]
      exact ⟨kept.trans same, tracks'⟩
    · simp only [if_neg refused, kept]
      exact ⟨same, tracks⟩

/-- After any offers the budget reports the length of the response of the included records, within
the limit; a further record is refused exactly when the response with it is too long, and then
nothing changes. -/
theorem claim_budget_exact (maxBytes : UInt64) (offered : List ClaimedWork) :
    (ClaimResponseBudget.new maxBytes = .error .tooLarge ↔
      maxBytes.toNat < (serialize ([] : List ClaimedWork)).length) ∧
    ∀ budget, ClaimResponseBudget.new maxBytes = .ok budget →
      ∃ bytes, (budget.offers offered).1.encodedBytes = .ok bytes ∧
        bytes.toNat = (serialize (budget.offers offered).2).length ∧ bytes ≤ maxBytes ∧
        ∀ record,
          (((budget.offers offered).1.tryInclude record).1 ≠ .ok true ↔
            maxBytes.toNat < (serialize ((budget.offers offered).2 ++ [record])).length) ∧
          (((budget.offers offered).1.tryInclude record).1 ≠ .ok true →
            ((budget.offers offered).1.tryInclude record).2 = (budget.offers offered).1) := by
  constructor
  · have one : encodedLen (0 : UInt64) = .ok 1 := by decide
    have least : (serialize ([] : List ClaimedWork)).length = (1 : UInt64).toNat := rfl
    rw [ClaimResponseBudget.new, one, ok_bind, least, ← UInt64.lt_iff_toNat_lt]
    by_cases small : maxBytes < 1
    · rw [decide_eq_true small]
      exact iff_of_true rfl small
    · rw [decide_eq_false small]
      exact iff_of_false (fun refused => by cases refused) small
  · intro budget opened
    obtain ⟨same, start⟩ := tracks_new opened
    obtain ⟨kept, tracks⟩ := start.offers offered
    obtain ⟨bytes, reported, measured⟩ := tracks.encodedBytes
    rw [← same, ← kept]
    refine ⟨bytes, reported, measured, ?_, fun record => ?_⟩
    · rw [UInt64.le_iff_toNat_le, measured]
      exact tracks.fits
    · rcases tracks.tryInclude record with ⟨next, answer, limit, tracks'⟩ | ⟨refused, kept', long⟩
      · have fits := tracks'.fits
        rw [limit] at fits
        rw [answer]
        exact ⟨iff_of_false (fun refused => refused rfl) (Nat.not_lt.mpr fits),
          fun refused => absurd rfl refused⟩
      · exact ⟨iff_of_true refused long, fun _ => kept'⟩

/-- A pending record without fields. -/
def smallClaim : ClaimedWork where
  record :=
    { work := ⟨"k", 0, 0, ∅, []⟩
      version := 1
      insertionSequence := 1
      lifecycle := .leased
      eligibleSince := 0
      attempts := 1
      leaseExpiresAt := some 5 }
  lease := ⟨[1, 2]⟩

/-- A limit of 17 bytes takes one such record and refuses the second. -/
theorem claim_budget_exact_second :
    ClaimResponseBudget.new 17 = .ok ⟨17, 0, 0⟩ ∧
    (ClaimResponseBudget.offers ⟨17, 0, 0⟩ [smallClaim]).2 = [smallClaim] ∧
    ((ClaimResponseBudget.offers ⟨17, 0, 0⟩ [smallClaim]).1.tryInclude smallClaim).1 ≠
      .ok true := by
  have opened : ClaimResponseBudget.new 17 = .ok ⟨17, 0, 0⟩ := by decide
  obtain ⟨bytes, -, -, -, further⟩ := (claim_budget_exact 17 [smallClaim]).2 ⟨17, 0, 0⟩ opened
  exact ⟨opened, by decide +kernel, (further smallClaim).1.mpr (by decide +kernel)⟩

end QueueClaim
