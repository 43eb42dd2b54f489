import Hashmark.Number.Shortest

/-!
# The text of a double

A layout lists the decisions that a format takes on top of the shortest decimal: which of two
equally near decimals it takes, which magnitudes it writes with an exponent, and how it marks a
whole number. There are two: plain text and JSON.
-/

namespace Hashmark.Number

/-- The decisions of a number format. -/
structure Layout where
  tie : Tie
  /-- Whether a number between `10 ^ e` and `10 ^ (e + 1)` is written with an exponent. -/
  exponential : Int → Bool
  /-- What follows the digits of a whole number written without an exponent. -/
  wholeMark : String

/-- Plain text has no exponents, writes whole numbers without a point, and a tie goes up. -/
def Layout.plain : Layout :=
  ⟨.up, fun _ => false, ""⟩

/-- JSON writes numbers below `10 ^ -5` and from `10 ^ 16` on with an exponent, other whole numbers
with `.0`, and a tie goes to the even digit. -/
def Layout.json : Layout :=
  ⟨.even, fun e => e < -5 || 16 ≤ e, ".0"⟩

/-- A text of `n` zeros. -/
def zeros (n : Nat) : String :=
  String.ofList (List.replicate n '0')

namespace Decimal

/-- The digits before and after a point that follows the first `places` digits; missing digits on
either side are zeros. -/
def positional (d : Decimal) (wholeMark : String) : String :=
  let digits := Nat.toDigits 10 d.digits
  let places := digits.length + d.exponent
  if places ≤ 0 then
    "0." ++ zeros (-places).toNat ++ String.ofList digits
  else if 0 ≤ d.exponent then
    String.ofList digits ++ zeros d.exponent.toNat ++ wholeMark
  else
    String.ofList (digits.take places.toNat) ++ "." ++ String.ofList (digits.drop places.toNat)

/-- One digit, the others after a point, and the exponent with its sign. -/
def scientific (d : Decimal) : String :=
  let digits := Nat.toDigits 10 d.digits
  let exponent := d.exponent + (digits.length - 1)
  let mantissa := match digits with
    | [] => ""
    | [c] => String.singleton c
    | c :: rest => String.singleton c ++ "." ++ String.ofList rest
  let sign := if exponent < 0 then "-" else "+"
  mantissa ++ "e" ++ sign ++ toString exponent.natAbs

end Decimal

namespace Layout

/-- The text of a finite double; infinities and NaN have none. -/
def text? (l : Layout) (x : Float) : Option String :=
  (Dyadic.ofFloat? x).map fun d =>
    let sign := if d.negative then "-" else ""
    if d.significand = 0 then sign ++ "0" ++ l.wholeMark
    else
      let decimal := shortest l.tie d.significand d.exponent
      let magnitude := decimal.exponent + ((Nat.toDigits 10 decimal.digits).length - 1)
      if l.exponential magnitude then sign ++ decimal.scientific
      else sign ++ decimal.positional l.wholeMark

end Layout

/-- The plain text of any double. -/
def plainText (x : Float) : String :=
  match Layout.plain.text? x with
  | some text => text
  | none => if x.isNaN then "NaN" else if x < 0 then "-inf" else "inf"

end Hashmark.Number
