import Hashmark.Number.Dyadic

/-!
# Shortest decimals

The decimal with the fewest digits that reads back as a given double, and of those the nearest to
it. The reals that round to the double form an interval, whose ends count iff the significand is
even. A decimal grid is a set of multiples of a power of ten; the coarsest grid with a point in
the interval gives the fewest digits, and if a grid has a point there, one of the two neighbours
of the double on that grid is there.
-/

namespace Hashmark.Number

/-- Which of two equally near decimals is taken. -/
inductive Tie where
  | up
  | even
  deriving DecidableEq, Repr

/-- A positive decimal `digits · 10 ^ exponent`. -/
structure Decimal where
  digits : Nat
  exponent : Int
  deriving DecidableEq, Repr

/-- The interval of a positive double and the double itself, over one denominator. -/
structure Interval where
  low : Nat
  value : Nat
  high : Nat
  denominator : Nat
  /-- Whether the ends belong to the interval. -/
  closed : Bool

namespace Interval

/-- The reals that round to `m · 2 ^ e`. Below a power of two the neighbour is half as far away
as above it, except at the smallest exponent. -/
def ofDyadic (m : Nat) (e : Int) : Interval :=
  let below := if m = Dyadic.leastFull ∧ Dyadic.leastExponent < e then 1 else 2
  let scale := Nat.pow 2 (e - 2).toNat
  { low := (4 * m - below) * scale
    value := 4 * m * scale
    high := (4 * m + 2) * scale
    denominator := Nat.pow 2 (2 - e).toNat
    closed := m % 2 = 0 }

/-- The same interval in units of `10 ^ e`. -/
def inUnits (i : Interval) (e : Int) : Interval :=
  let scale := Nat.pow 10 (-e).toNat
  { i with
    low := i.low * scale
    value := i.value * scale
    high := i.high * scale
    denominator := i.denominator * Nat.pow 10 e.toNat }

/-- Whether a whole number of units lies in the interval. -/
def contains (i : Interval) (n : Nat) : Bool :=
  let n := n * i.denominator
  if i.closed then i.low ≤ n && n ≤ i.high else i.low < n && n < i.high

/-- The whole number of units in the interval that is nearest to the value, if there is any. -/
def nearest? (i : Interval) (tie : Tie) : Option Nat :=
  let below := i.value / i.denominator
  match i.contains below, i.contains (below + 1) with
  | true, true =>
    let rest := 2 * (i.value % i.denominator)
    let upward := i.denominator < rest ∨
      (i.denominator = rest ∧ (tie = .up ∨ below % 2 = 1))
    some (if upward then below + 1 else below)
  | true, false => some below
  | false, true => some (below + 1)
  | false, false => none

/-- The first hit on the grids of `10 ^ e`, `10 ^ (e - 1)`, …; after `grids` of them the value is
cut off. -/
def search (i : Interval) (tie : Tie) (e : Int) : Nat → Decimal
  | 0 => ⟨(i.inUnits e).value / (i.inUnits e).denominator, e⟩
  | grids + 1 =>
    match (i.inUnits e).nearest? tie with
    | some n => ⟨n, e⟩
    | none => search i tie (e - 1) grids

end Interval

/-- The shortest decimal of the positive number `m · 2 ^ e`. The search starts on a grid coarser
than the number; seventeen digits always suffice. -/
def shortest (tie : Tie) (m : Nat) (e : Int) : Decimal :=
  let magnitude := (m.log2 + 1 + e) * 30103 / 100000 + 2
  (Interval.ofDyadic m e).search tie magnitude 24

end Hashmark.Number
