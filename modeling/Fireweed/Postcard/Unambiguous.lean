import Fireweed.Postcard

/-!
# Unambiguous encodings

An encoding is unambiguous when the end of a code word can be told from the word
itself: two words followed by anything agree only if they encode one value. Such
an encoding is injective, and a sequence of such words can be cut in one way.
-/

namespace Postcard

open List

/-- What follows a code word does not change which value it encodes. -/
def Unambiguous {α : Type} (encode : α → List UInt8) : Prop :=
  ∀ a b u v, encode a ++ u = encode b ++ v → a = b ∧ u = v

theorem Unambiguous.injective {α : Type} {encode : α → List UInt8}
    (unambiguous : Unambiguous encode) : Function.Injective encode := by
  intro a b same
  exact (unambiguous a b [] [] (by rw [same])).1

/-! ## Varints -/

/-- The continuation bits tell where a varint ends. -/
theorem varintWithin_append_inj {width m n : Nat} {u v : List UInt8}
    (same : varintWithin width m ++ u = varintWithin width n ++ v) :
    varintWithin width m = varintWithin width n ∧ u = v := by
  induction width generalizing m n with
  | zero => exact ⟨rfl, by simpa [varintWithin] using same⟩
  | succ width ih =>
    have last : ∀ {k l : Nat}, k < 128 → UInt8.ofNat k ≠ UInt8.ofNat (l % 128 + 128) := by
      intro k l small equal
      have bytes := congrArg UInt8.toNat equal
      simp only [UInt8.toNat_ofNat'] at bytes
      omega
    rw [varintWithin, varintWithin] at same ⊢
    by_cases shortM : m < 128 <;> by_cases shortN : n < 128
    · simp only [shortM, shortN, if_true, singleton_append, cons.injEq] at same ⊢
      exact ⟨⟨same.1, trivial⟩, same.2⟩
    · simp only [shortM, shortN, if_true, if_false, cons_append, cons.injEq] at same
      exact absurd same.1 (last shortM)
    · simp only [shortM, shortN, if_true, if_false, cons_append, cons.injEq] at same
      exact absurd same.1.symm (last shortN)
    · simp only [shortM, shortN, if_false, cons_append, cons.injEq] at same ⊢
      obtain ⟨tail, rest⟩ := ih same.2
      exact ⟨⟨same.1, tail⟩, rest⟩

theorem varintWithin_inj {width m n : Nat} (boundM : m < 128 ^ width) (boundN : n < 128 ^ width)
    (same : varintWithin width m = varintWithin width n) : m = n := by
  induction width generalizing m n with
  | zero => omega
  | succ width ih =>
    rw [Nat.pow_succ] at boundM boundN
    rw [varintWithin, varintWithin] at same
    by_cases shortM : m < 128 <;> by_cases shortN : n < 128 <;>
      simp only [shortM, shortN, if_true, if_false, cons.injEq] at same
    all_goals have bytes := congrArg UInt8.toNat same.1
    all_goals simp only [UInt8.toNat_ofNat'] at bytes
    · omega
    · omega
    · omega
    · have quotients :=
        ih (Nat.div_lt_of_lt_mul (by omega)) (Nat.div_lt_of_lt_mul (by omega)) same.2
      omega

/-- The numbers a varint has room for. -/
theorem varint_inj {m n : Nat} (boundM : m < 2 ^ 64) (boundN : n < 2 ^ 64)
    (same : varint m = varint n) : m = n :=
  varintWithin_inj (Nat.lt_trans boundM (by decide)) (Nat.lt_trans boundN (by decide)) same

theorem varint_append_inj {m n : Nat} {u v : List UInt8}
    (same : varint m ++ u = varint n ++ v) : varint m = varint n ∧ u = v :=
  varintWithin_append_inj same

/-! ## Scalars -/

theorem zigzag_inj {m n : Int} (same : zigzag m = zigzag n) : m = n := by
  simp only [zigzag] at same
  split at same <;> split at same <;> omega

theorem zigzag_lt (n : Int64) : zigzag n.toInt < 2 ^ 64 := by
  have high := n.toInt_lt
  have low : -(2 : Int) ^ 63 ≤ n.toInt := by simpa using n.le_toInt
  simp only [zigzag]
  split <;> omega

theorem serialize_int64_injective : Function.Injective (serialize : Int64 → List UInt8) := by
  intro m n same
  exact Int64.toInt_inj.mp (zigzag_inj (varint_inj (zigzag_lt m) (zigzag_lt n) same))

theorem leBytes_inj {width m n : Nat} (boundM : m < 256 ^ width) (boundN : n < 256 ^ width)
    (same : leBytes width m = leBytes width n) : m = n := by
  induction width generalizing m n with
  | zero => omega
  | succ width ih =>
    rw [Nat.pow_succ] at boundM boundN
    rw [leBytes, leBytes, cons.injEq] at same
    have bytes := congrArg UInt8.toNat same.1
    simp only [UInt8.toNat_ofNat'] at bytes
    have quotients := ih (Nat.div_lt_of_lt_mul (by omega)) (Nat.div_lt_of_lt_mul (by omega)) same.2
    omega

theorem serialize_bool_injective : Function.Injective (serialize : Bool → List UInt8) := by
  intro a b same
  cases a <;> cases b <;> first | rfl | exact absurd same (by decide)

/-- A string follows its length, so the bytes alone decide it. -/
theorem serialize_string_injective : Function.Injective (serialize : String → List UInt8) := by
  intro s t same
  have bytes := (varint_append_inj same).2
  have arrays : s.toUTF8.data = t.toUTF8.data := Array.toList_inj.mp bytes
  exact String.toByteArray_inj.mp (ByteArray.ext arrays)

theorem serialize_bytes_injective : Function.Injective (serialize : List UInt8 → List UInt8) := by
  intro a b same
  have bytes := (varint_append_inj same).2
  have each : ∀ l : List UInt8, l.flatMap serialize = l := by
    intro l
    exact flatMap_singleton' l
  rwa [each, each] at bytes

end Postcard
