import Mathlib

/-! `Timestamp` and `addTime` (`include/TimeStamp.h`). Signed arithmetic that does not fit in 64 bits
has no result. -/

namespace MuduoX

/-- Microseconds since the epoch; a default `Timestamp()` is 0. -/
abbrev Timestamp := Int

def Timestamp.valid (t : Timestamp) : Prop := 0 < t

instance (t : Timestamp) : Decidable t.valid := inferInstanceAs (Decidable (0 < t))

def kMicroSecondsPerSecond : Int := 1000 * 1000

/-- The result of an operation on `int64_t`, which has none when it overflows. -/
def int64 (x : Int) : Option Int := if -2 ^ 63 ≤ x ∧ x < 2 ^ 63 then some x else none

/-- What the code uses of the double `interval`: whether `interval > 0.0`, and the microseconds that
`addTime` casts it to. -/
structure Interval where
  positive : Bool
  micros : Int
  micros_nonneg : positive → 0 ≤ micros

/-- `addTime(timestamp, seconds)`. -/
def addTime (timestamp : Timestamp) (seconds : Interval) : Option Timestamp :=
  int64 (timestamp + seconds.micros)

end MuduoX
