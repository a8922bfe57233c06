import Mathlib.Order.Basic
import Mathlib.Order.Lattice
import Mathlib.Data.Int.Order.Basic
import Mathlib.Tactic.Linarith

/-!
# Timestamps

Seconds and nanoseconds below one second, compared seconds first, with the
saturating and wrapping arithmetic of lease deadlines.
-/

namespace Domain

structure UtcTimestamp where
  seconds : Int64
  nanoseconds : UInt32
  normal : nanoseconds < 1000000000
deriving DecidableEq

namespace UtcTimestamp

theorem whole_normal : (0 : UInt32) < 1000000000 := by decide

def toNanos (t : UtcTimestamp) : Int := t.seconds.toInt * 1000000000 + t.nanoseconds.toNat

theorem nanoseconds_lt (t : UtcTimestamp) : t.nanoseconds.toNat < 1000000000 := by
  have bound := t.normal
  rw [UInt32.lt_iff_toNat_lt] at bound
  simpa using bound

theorem toNanos_injective : Function.Injective toNanos := by
  rintro ⟨s, n, hn⟩ ⟨s', n', hn'⟩ same
  have left := nanoseconds_lt ⟨s, n, hn⟩
  have right := nanoseconds_lt ⟨s', n', hn'⟩
  simp only [toNanos] at same left right
  have seconds : s.toInt = s'.toInt := by omega
  have nanos : n.toNat = n'.toNat := by omega
  obtain rfl := Int64.toInt_inj.mp seconds
  obtain rfl := UInt32.toNat_inj.mp nanos
  rfl

instance : LinearOrder UtcTimestamp := LinearOrder.lift' toNanos toNanos_injective

/-- The saturating addition of `i64`. -/
def saturatingAdd (a b : Int64) : Int64 :=
  Int64.ofInt (max (-9223372036854775808) (min 9223372036854775807 (a.toInt + b.toInt)))

/-- Milliseconds from `a` to `b`, zero unless `b` is later. The difference of the seconds and the
result wrap. -/
def elapsedMs (a b : UtcTimestamp) : UInt64 :=
  if b ≤ a then 0
  else
    let secs := (b.seconds - a.seconds).toInt
    let nanos : Int := b.nanoseconds.toNat - a.nanoseconds.toNat
    UInt64.ofInt (max (secs * 1000 + nanos / 1000000) 0)

/-- `t + ms`: the seconds saturate, the nanoseconds carry. -/
def addMillis (t : UtcTimestamp) (ms : UInt64) : UtcTimestamp :=
  let secs := saturatingAdd t.seconds (Int64.ofNat (ms.toNat / 1000))
  let nanos := t.nanoseconds.toNat + ms.toNat % 1000 * 1000000
  if high : 1000000000 ≤ nanos then
    ⟨saturatingAdd secs 1, UInt32.ofNat (nanos - 1000000000), by
      have := t.nanoseconds_lt
      rw [UInt32.lt_iff_toNat_lt, UInt32.toNat_ofNat_of_lt'] <;> simp [UInt32.size] <;> omega⟩
  else
    ⟨secs, UInt32.ofNat nanos, by
      rw [UInt32.lt_iff_toNat_lt, UInt32.toNat_ofNat_of_lt'] <;> simp [UInt32.size] <;> omega⟩

end UtcTimestamp

end Domain
