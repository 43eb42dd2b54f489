/-!
# Finite doubles as integers

A finite double is a sign and a natural number times a power of two. This is the form in which
decimal texts and remainders are computed, without rounding.
-/

namespace Hashmark.Number

/-- The number `significand · 2 ^ exponent`, negated if `negative`. A zero has a sign too. -/
structure Dyadic where
  negative : Bool
  significand : Nat
  exponent : Int
  deriving DecidableEq, Repr

namespace Dyadic

/-- The exponent of the last place of the smallest doubles. -/
def leastExponent : Int := -1074

/-- The first number with 53 binary digits, as the significands of most doubles have. -/
def leastFull : Nat := Nat.pow 2 52

/-- The sign of a double among its bits. -/
def signBit : Nat := Nat.pow 2 63

/-- The value of a double; infinities and NaN have none. -/
def ofFloat? (x : Float) : Option Dyadic :=
  let bits := x.toBits.toNat
  let biased : Nat := bits / leastFull % 2048
  let fraction := bits % leastFull
  let negative := decide (signBit ≤ bits)
  if biased = 2047 then none
  else if biased = 0 then some ⟨negative, fraction, leastExponent⟩
  else some ⟨negative, leastFull + fraction, leastExponent + (biased - 1)⟩

/-- The double with the given value. The value has to fit: at most 53 binary digits between its
first and its last nonzero one, the last at `leastExponent` or above. -/
def toFloat (d : Dyadic) : Float :=
  let places := max (d.exponent + d.significand.log2 - 52) leastExponent
  let shift := d.exponent - places
  let m := if 0 ≤ shift then d.significand * Nat.pow 2 shift.toNat
    else d.significand / Nat.pow 2 (-shift).toNat
  let magnitude :=
    if m < leastFull then m
    else (places - leastExponent + 1).toNat * leastFull + (m - leastFull)
  Float.ofBits (UInt64.ofNat (magnitude + if d.negative then signBit else 0))

/-- The exponent of the last of the 53 binary digits of the positive number `num / den`, or the
least exponent if that is greater. -/
def lastPlace (num den : Nat) : Int :=
  let e : Int := num.log2 - den.log2
  let first := if den * Nat.pow 2 e.toNat ≤ num * Nat.pow 2 (-e).toNat then e else e - 1
  max (first - 52) leastExponent

end Dyadic

/-- The double nearest to `num / den`. A tie goes to the even significand, and half a place above
the greatest double the infinity begins. -/
def nearestFloat (num den : Nat) : Float :=
  if num = 0 then 0
  else
    let places := Dyadic.lastPlace num den
    let n := num * Nat.pow 2 (-places).toNat
    let d := den * Nat.pow 2 places.toNat
    let upward := d < 2 * (n % d) ∨ (d = 2 * (n % d) ∧ n / d % 2 = 1)
    let m := if upward then n / d + 1 else n / d
    if 1024 ≤ places + m.log2 then 1.0 / 0.0 else Dyadic.toFloat ⟨false, m, places⟩

/-- A value that is not a number. -/
def nan : Float := 0.0 / 0.0

/-- The exact remainder of the division of `x` by `y` truncated to an integer; it has the sign of
`x`. An infinite divisor leaves `x`; an infinite dividend or a zero divisor gives no number. -/
def remainder (x y : Float) : Float :=
  match Dyadic.ofFloat? x, Dyadic.ofFloat? y with
  | some a, some b =>
    if b.significand = 0 then nan
    else
      let places := min a.exponent b.exponent
      let m := a.significand * Nat.pow 2 (a.exponent - places).toNat
      let n := b.significand * Nat.pow 2 (b.exponent - places).toNat
      Dyadic.toFloat ⟨a.negative, m % n, places⟩
  | some _, none => if y.isNaN then nan else x
  | none, _ => nan

end Hashmark.Number
