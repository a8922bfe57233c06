import Fireweed.QueueContract.Admission

/-!
# Responses of admitted requests

Admission reserves, for every group of a batch or item of an insert, the length of
one synthetic receipt: the largest success, with every version at its maximum, or a
rejection with a message of 256 bytes. Whatever the outcomes turn out to be, the
encoded response is within the reserved length.
-/

namespace QueueContract

open BTree Checked List Postcard Std

/-- A rejection whose message, if it has one, is at most 256 bytes. -/
def Rejection.Short : Rejection → Prop
  | .invalid message => message.toUTF8.size ≤ 256
  | _ => True

def GroupOutcome.Answers (group : CommitGroup) : GroupOutcome → Prop
  | .requestConflict | .requestExpired => True
  | .committed versions => versions.map (fun v => (v.collection, v.key)) = group.modifiedRecords
  | .rejected reason => reason.Short
  | .administrativeCommitted _ _ => False

def CommitReceipt.Answers (group : CommitGroup) (receipt : CommitReceipt) : Prop :=
  receipt.requestId = group.requestId ∧ receipt.outcome.Answers group

def InsertOutcome.Answers (item : NewWork) : InsertOutcome → Prop
  | .inserted key _ | .replaced key _ => key = item.key
  | .rejected key reason => key = item.key ∧ reason.Short

/-! ## One receipt -/

theorem serialize_longestRejection : (serialize longestRejection).length = 259 := by
  decide +kernel

theorem Rejection.Short.length_le {reason : Rejection} (short : reason.Short) :
    (serialize reason).length ≤ (serialize longestRejection).length := by
  rw [serialize_longestRejection]
  cases reason with
  | invalid message =>
    change (variant 5 (serialize message)).length ≤ _
    have size : message.toUTF8.size ≤ 256 := short
    have width : (varint message.toUTF8.size).length ≤ 2 :=
      varintWithin_length_of_lt (by omega)
    have ordinal : (varint 5).length = 1 := rfl
    rw [variant, length_append, serialize_string_length, ordinal]
    omega
  | staleLease => decide
  | versionConflict => decide
  | alreadyExists => decide
  | notFound => decide
  | leased => decide
  | uniqueConflict => decide
  | terminal => decide
  | tooLarge => decide

theorem serialize_version_length_le (version : UInt64) :
    (serialize version).length ≤ (serialize (18446744073709551615 : UInt64)).length := by
  have longest : (serialize (18446744073709551615 : UInt64)).length = 10 := by decide
  rw [longest]
  exact varint_length_le version.toNat

/-- No version makes a record version longer than the maximal one. -/
theorem serialize_recordVersion_length_le (v : RecordVersion) :
    (serialize v).length ≤
      (serialize ({ v with version := 18446744073709551615 } : RecordVersion)).length := by
  have version := serialize_version_length_le v.version
  change (serialize v.collection ++ serialize v.key ++ serialize v.version).length ≤
    (serialize v.collection ++ serialize v.key ++
      serialize (18446744073709551615 : UInt64)).length
  simp only [length_append]
  omega

theorem serialize_versions_length_le (versions : List RecordVersion) :
    (serialize versions).length ≤
      (serialize (versions.map fun v =>
        ({ v with version := 18446744073709551615 } : RecordVersion))).length := by
  rw [serialize_list_length, serialize_list_length, List.length_map, List.map_map]
  apply Nat.add_le_add_left
  exact sum_le_sum fun v _ => serialize_recordVersion_length_le v

section Group

variable {group : CommitGroup} (ordinary : group.administration = none)

include ordinary

/-- The reserved bytes cover every receipt of the group. -/
theorem CommitReceipt.Answers.length_le {receipt : CommitReceipt}
    (answers : receipt.Answers group) : (serialize receipt).length ≤ group.responseBytes := by
  obtain ⟨requestId, outcome⟩ := receipt
  obtain ⟨same, shaped⟩ := answers
  change requestId = group.requestId at same
  subst same
  rw [CommitGroup.responseBytes, ordinary]
  have rejectedLength : (serialize (⟨group.requestId, .rejected longestRejection⟩ :
      CommitReceipt)).length = (serialize group.requestId).length + (1 + 259) := by
    change (serialize group.requestId ++ variant 3 (serialize longestRejection)).length = _
    rw [variant, length_append, length_append, serialize_longestRejection]
    rfl
  cases outcome with
  | requestConflict =>
    refine le_max_of_le_right ?_
    rw [rejectedLength]
    change (serialize group.requestId ++ variant 0 []).length ≤ _
    rw [length_append]
    exact Nat.add_le_add_left (by decide) _
  | requestExpired =>
    refine le_max_of_le_right ?_
    rw [rejectedLength]
    change (serialize group.requestId ++ variant 1 []).length ≤ _
    rw [length_append]
    exact Nat.add_le_add_left (by decide) _
  | committed versions =>
    refine le_max_of_le_left ?_
    have identities : versions.map (fun v => (v.collection, v.key)) = group.modifiedRecords :=
      shaped
    rw [← identities, List.map_map]
    change (serialize group.requestId ++ variant 2 (serialize versions)).length ≤
      (serialize group.requestId ++ variant 2 (serialize (versions.map fun v =>
        ({ v with version := 18446744073709551615 } : RecordVersion)))).length
    have longest := serialize_versions_length_le versions
    simp only [variant, length_append]
    omega
  | rejected reason =>
    refine le_max_of_le_right ?_
    have short := Rejection.Short.length_le shaped
    change (serialize group.requestId ++ variant 3 (serialize reason)).length ≤
      (serialize group.requestId ++ variant 3 (serialize longestRejection)).length
    simp only [variant, length_append]
    omega
  | administrativeCommitted versions administration => exact shaped.elim

end Group

theorem InsertOutcome.Answers.length_le {item : NewWork} {outcome : InsertOutcome}
    (answers : outcome.Answers item) :
    (serialize outcome).length ≤ InsertRequest.responseBytes item := by
  rw [InsertRequest.responseBytes]
  cases outcome with
  | inserted key version | replaced key version =>
    refine le_max_of_le_left ?_
    change key = item.key at answers
    subst answers
    have longest := serialize_version_length_le version
    change (variant _ (serialize item.key ++ serialize version)).length ≤
      (variant 1 (serialize item.key ++ serialize (18446744073709551615 : UInt64))).length
    have ordinals : (varint 0).length = 1 ∧ (varint 1).length = 1 := by decide
    simp only [variant, length_append, ordinals]
    omega
  | rejected key reason =>
    refine le_max_of_le_right ?_
    obtain ⟨same, shortReason⟩ := answers
    subst same
    have short := shortReason.length_le
    change (variant 2 (serialize item.key ++ serialize reason)).length ≤
      (variant 2 (serialize item.key ++ serialize longestRejection)).length
    simp only [variant, length_append]
    omega

/-! ## The whole response -/

/-- A loop of reservations ends below the limit with the sum of what was reserved. -/
theorem foldlM_reserve {α : Type} {limits : QueueLimits} {bytes : α → Nat} {l : List α}
    {start final : Nat} (nonempty : l ≠ [])
    (reserved : l.foldlM (fun total a => reserve limits total (bytes a)) start = .ok final) :
    start + (l.map bytes).sum ≤ limits.maxResponseBytes.toNat := by
  induction l generalizing start with
  | nil => exact absurd rfl nonempty
  | cons a l ih =>
    rw [foldlM_cons] at reserved
    obtain ⟨next, here, later⟩ := bind_eq_ok.mp reserved
    rw [reserve] at here
    split at here
    · cases here
    · next within =>
      cases here
      rw [map_cons, sum_cons]
      cases l with
      | nil =>
        simp only [map_nil, sum_nil]
        omega
      | cons b l =>
        have := ih (by simp) later
        omega

/-- A sequence of answers fits where each answer fits what was reserved for it. -/
theorem serialize_answers_length_le {α β : Type} [Serialize β] {bytes : α → Nat}
    {answers : α → β → Prop} {requests : List α} {responses : List β}
    (within : ∀ a ∈ requests, ∀ b, answers a b → (serialize b).length ≤ bytes a)
    (answered : Forall₂ answers requests responses) :
    (serialize responses).length ≤ 10 + (requests.map bytes).sum := by
  have sums : (responses.map fun b => (serialize b).length).sum ≤ (requests.map bytes).sum := by
    induction answered with
    | nil => exact Nat.le_refl _
    | cons here _ ih =>
      rw [map_cons, map_cons, sum_cons, sum_cons]
      have first := within _ mem_cons_self _ here
      have rest := ih fun a member => within a (mem_cons_of_mem _ member)
      omega
  have count := varint_length_le responses.length
  rw [serialize_list_length]
  omega

/-- Every response to an admitted batch or insert is within the response limit. -/
theorem admitted_response_within (schema : QueueSchema) (limits : QueueLimits) :
    (∀ (queue : QueueAddress) (groups : List CommitGroup) (receipts : List CommitReceipt),
      validateCommitGroups schema limits queue groups = .ok () →
      (∀ group ∈ groups, group.administration = none) →
      Forall₂ CommitReceipt.Answers groups receipts →
        (serialize receipts).length ≤ limits.maxResponseBytes.toNat) ∧
    ∀ (request : InsertRequest) (outcomes : List InsertOutcome),
      request.validate schema limits = .ok () →
      Forall₂ InsertOutcome.Answers request.items outcomes →
        (serialize outcomes).length ≤ limits.maxResponseBytes.toNat := by
  constructor
  · intro queue groups receipts validated ordinary answered
    rw [validateCommitGroups] at validated
    obtain ⟨-, rest⟩ := check_bind_eq_ok.mp validated
    obtain ⟨-, rest⟩ := check_bind_eq_ok.mp rest
    obtain ⟨-, rest⟩ := check_bind_eq_ok.mp rest
    obtain ⟨counted, rest⟩ := check_bind_eq_ok.mp rest
    obtain ⟨_, -, rest⟩ := bind_eq_ok.mp rest
    obtain ⟨_, reserved, -⟩ := bind_eq_ok.mp rest
    have nonempty : groups ≠ [] := by
      rintro rfl
      simp at counted
    have fits := serialize_answers_length_le
      (fun group member receipt answers =>
        CommitReceipt.Answers.length_le (ordinary group member) answers) answered
    exact fits.trans (foldlM_reserve nonempty reserved)
  · intro request outcomes validated answered
    rw [InsertRequest.validate] at validated
    obtain ⟨-, rest⟩ := check_bind_eq_ok.mp validated
    obtain ⟨-, rest⟩ := check_bind_eq_ok.mp rest
    obtain ⟨-, rest⟩ := check_bind_eq_ok.mp rest
    obtain ⟨counted, rest⟩ := check_bind_eq_ok.mp rest
    obtain ⟨_, -, rest⟩ := bind_eq_ok.mp rest
    obtain ⟨_, reserved, -⟩ := bind_eq_ok.mp rest
    have nonempty : request.items ≠ [] := by
      intro empty
      simp [empty] at counted
    have fits := serialize_answers_length_le
      (fun item _ outcome answers => InsertOutcome.Answers.length_le answers) answered
    exact fits.trans (foldlM_reserve nonempty reserved)

def sampleWork : NewWork := ⟨"k", 0, 0, .ofList [("a", .integer 1)] compare, []⟩

/-- A batch of one insert, answered with a commit and with a rejection, and an insert request. -/
theorem admitted_response_within_sample :
    let group : CommitGroup := ⟨"r", [], [], [sampleWork], [], none⟩
    let committed : CommitReceipt := ⟨"r", .committed [⟨none, "k", 7⟩]⟩
    let rejected : CommitReceipt := ⟨"r", .rejected .alreadyExists⟩
    let limits : QueueLimits := .default
    validateCommitGroups sampleSchema limits sampleQueue [group] = .ok () ∧
      (serialize [committed]).length ≤ limits.maxResponseBytes.toNat ∧
      (serialize [rejected]).length ≤ limits.maxResponseBytes.toNat ∧
      (serialize [InsertOutcome.inserted "k" 7]).length ≤ limits.maxResponseBytes.toNat := by
  intro group committed rejected limits
  have validated : validateCommitGroups sampleSchema limits sampleQueue [group] = .ok () := by
    decide +kernel
  have inserted : (InsertRequest.mk sampleQueue "r" .insertOnly [sampleWork]).validate sampleSchema
      limits = .ok () := by
    decide +kernel
  have ordinary : ∀ g ∈ [group], g.administration = none := by simp [group]
  refine ⟨validated, ?_, ?_, ?_⟩
  · exact (admitted_response_within sampleSchema limits).1 _ _ _ validated ordinary
      (.cons ⟨rfl, rfl⟩ .nil)
  · exact (admitted_response_within sampleSchema limits).1 _ _ _ validated ordinary
      (.cons ⟨rfl, trivial⟩ .nil)
  · exact (admitted_response_within sampleSchema limits).2 _ _ inserted (.cons rfl .nil)

end QueueContract
