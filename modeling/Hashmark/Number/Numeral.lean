import Hashmark.Number.Dyadic

/-!
# Numerals

Decimal numerals as they are written, and two ways to read one as a double: the nearest double
(`nearest`), and the scaled reading of JSON texts (`scaled?`), which works in double arithmetic on
the leading digits and can miss the nearest double by a last place.
-/

namespace Hashmark.Number

/-- The number that a list of decimal digits stands for, after those read already. -/
def foldDigits (start : Nat) (digits : List Nat) : Nat :=
  digits.foldl (fun n d => 10 * n + d) start

/-- The digit that a character stands for. -/
def digit? (c : Char) : Option Nat :=
  if c.isDigit then some (c.toNat - 48) else none

/-- The digits at the start of a text, and the text after them. -/
def takeDigits : List Char → List Nat × List Char
  | [] => ([], [])
  | c :: cs =>
    match digit? c with
    | some d => let (ds, rest) := takeDigits cs; (d :: ds, rest)
    | none => ([], c :: cs)

theorem takeDigits_length (cs : List Char) :
    (takeDigits cs).1.length + (takeDigits cs).2.length = cs.length := by
  induction cs with
  | nil => rfl
  | cons c cs ih =>
    unfold takeDigits
    split
    · simp only [List.length_cons]; omega
    · simp

/-- `± whole.fraction · 10 ^ exponent`, digit by digit. -/
structure Numeral where
  negative : Bool
  whole : List Nat
  fraction : List Nat
  exponent : Int
  deriving DecidableEq, Repr

namespace Numeral

/-- A power of ten that is greater than every double, and whose inverse is nearest to zero. -/
def beyondPower : Nat := 400

/-- The double nearest to the numeral, with ties to even. -/
def nearest (n : Numeral) : Float :=
  let digits := foldDigits (foldDigits 0 n.whole) n.fraction
  let exponent := n.exponent - n.fraction.length
  let x :=
    if digits = 0 then 0
    else if beyondPower ≤ exponent then 1.0 / 0.0
    else if exponent + (n.whole.length + n.fraction.length) < -beyondPower then 0
    else nearestFloat (digits * Nat.pow 10 exponent.toNat) (Nat.pow 10 (-exponent).toNat)
  if n.negative then -x else x

/-- The largest power of ten that the scaled reading multiplies or divides by. -/
def greatestPower : Nat := 308

/-- `10 ^ n` as a double. -/
def powerOfTen (n : Nat) : Float :=
  nearestFloat (Nat.pow 10 n) 1

/-- The leading digits that can be added to `start` without leaving 64 bits, as a number, and the
digits that are left over. -/
def leading (start : Nat) : List Nat → Nat × List Nat
  | [] => (start, [])
  | d :: ds =>
    if 10 * start + d < UInt64.size then leading (10 * start + d) ds else (start, d :: ds)

/-- `x / 10 ^ n` by repeated division. -/
def scaleDown (x : Float) (n : Nat) : Float :=
  if n ≤ greatestPower then x / powerOfTen n
  else if x == 0 then x
  else scaleDown (x / powerOfTen greatestPower) (n - greatestPower)
termination_by n
decreasing_by simp only [greatestPower] at *; omega

/-- `x · 10 ^ e` in double arithmetic, unless that is too large. -/
def scale? (x : Float) (e : Int) : Option Float :=
  if e < 0 then some (scaleDown x e.natAbs)
  else if e.toNat ≤ greatestPower then
    let y := x * powerOfTen e.toNat
    if y.isInf then none else some y
  else if x == 0 then some x
  else none

/-- Exponents beyond 32 bits are not computed with. -/
def exponentLimit : Nat := UInt32.size / 2

/-- The scaled reading: the leading digits that fit 64 bits, as a double, times a power of ten.
Digits of the whole part that do not fit count in the exponent; those of the fraction that do not
fit are dropped. -/
def scaled? (n : Numeral) : Option Float :=
  let (whole, extra) := leading 0 n.whole
  let (digits, dropped) := leading whole n.fraction
  let magnitude? : Option Float :=
    if exponentLimit ≤ n.exponent then if digits = 0 then some 0 else none
    else if n.exponent ≤ -exponentLimit then some 0
    else
      scale? (Float.ofNat digits) (extra.length - (n.fraction.length - dropped.length) + n.exponent)
  magnitude?.map fun x => if n.negative then -x else x

end Numeral

end Hashmark.Number
