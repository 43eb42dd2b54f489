/-!
# Points in time

Times of modification and readings of the clock, as whole seconds since 1970 and nanoseconds.
-/

namespace Hashmark

/-- The nanoseconds of a second. -/
def nanosecondsPerSecond : Nat := 1000000000

/-- A span of time, in nanoseconds. -/
abbrev Duration := Nat

/-- A span of whole seconds. -/
def Duration.ofSeconds (n : Nat) : Duration :=
  n * nanosecondsPerSecond

/-- A point in time. -/
structure Timestamp where
  seconds : UInt64
  nanoseconds : UInt32
  deriving DecidableEq, Repr

namespace Timestamp

/-- A whole number of seconds after the start of 1970. -/
def ofSeconds (n : Nat) : Timestamp :=
  ⟨UInt64.ofNat n, 0⟩

/-- The start of 1970. -/
def epoch : Timestamp :=
  ofSeconds 0

/-- Whether a point is not later than another one. -/
def notAfter (a b : Timestamp) : Bool :=
  a.seconds < b.seconds || (a.seconds = b.seconds && a.nanoseconds ≤ b.nanoseconds)

/-- The later one of two points. -/
def latest (a b : Timestamp) : Timestamp :=
  if a.notAfter b then b else a

/-- The last second that a clock can show: seconds are counted with a sign, in 64 bits. -/
def lastSecond : Nat := 0x7fffffffffffffff

/-- The point that is a span of time after another one, if a clock can show it. -/
def after? (t : Timestamp) (d : Duration) : Option Timestamp :=
  let total := Duration.ofSeconds t.seconds.toNat + t.nanoseconds.toNat + d
  let seconds := total / nanosecondsPerSecond
  if seconds ≤ lastSecond then
    some ⟨UInt64.ofNat seconds, UInt32.ofNat (total % nanosecondsPerSecond)⟩
  else none

end Timestamp

end Hashmark
