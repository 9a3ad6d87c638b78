import Bytewright.Number.Binary64

/-!
# Shortest decimals

The decimal text of a finite floating-point number uses the fewest digits that read back as that
number.  The reals that read back as a word `m * 2 ^ p` form an interval around it whose ends
belong to it when `m` is even.  For each count of digits in turn the two neighbours of the value
on that decimal grid are tested; the first grid with a hit wins and of two hits the nearer one.
-/

namespace Bytewright.Shortest

/-- The reals that round to a positive word, counted in quarters of its last place: one unit is
`2 ^ unit`. -/
structure Interval where
  low : Nat
  value : Nat
  high : Nat
  closed : Bool
  unit : Int
deriving Repr

/-- The interval of a positive finite word.  Just above a power of two the words below lie twice
as close, so the lower end is nearer. -/
def Interval.ofWord (x : Binary64) : Interval :=
  let m := x.significand
  let nearer : Bool := m == Nat.pow 2 52 && 1 < x.exponent
  { low := 4 * m - (if nearer then 1 else 2)
    value := 4 * m
    high := 4 * m + 2
    closed := m % 2 == 0
    unit := x.power - 2 }

/-- Whether `n * 10 ^ k`, with `grid` and `unit` clearing the powers, lies in the interval. -/
def Interval.contains (I : Interval) (grid unit n : Nat) : Bool :=
  if I.closed then I.low * unit ≤ n * grid && n * grid ≤ I.high * unit
  else I.low * unit < n * grid && n * grid < I.high * unit

/-- The factor that clears `10 ^ k` and `2 ^ p` on the side of the grid. -/
def gridFactor (k p : Int) : Nat := Nat.pow 10 k.toNat * Nat.pow 2 (-p).toNat

/-- The factor that clears `10 ^ k` and `2 ^ p` on the side of the value. -/
def unitFactor (k p : Int) : Nat := Nat.pow 10 (-k).toNat * Nat.pow 2 p.toNat

/-- The neighbour of the value among the multiples of `10 ^ k` that lies in the interval; of two,
the nearer, and the upper one when they are equally near. -/
def onGrid? (I : Interval) (k : Int) : Option Nat :=
  let grid := gridFactor k I.unit
  let unit := unitFactor k I.unit
  let below := I.value * unit / grid
  match I.contains grid unit below, I.contains grid unit (below + 1) with
  | true, true =>
    if I.value * unit - below * grid < (below + 1) * grid - I.value * unit then some below
    else some (below + 1)
  | true, false => some below
  | false, true => some (below + 1)
  | false, false => none

/-- The greatest `e` with `10 ^ e` at most the value. -/
def decimalExponent (I : Interval) : Int :=
  let guess : Int := ((I.value.log2 : Int) + I.unit) * 30103 / 100000
  let atLeast (e : Int) : Bool := gridFactor e I.unit ≤ I.value * unitFactor e I.unit
  if atLeast (guess + 1) then guess + 1 else if atLeast guess then guess else guess - 1

/-- Tries grids with one digit more each time, from the power `k` of ten down. -/
def search (I : Interval) : Nat → Int → Nat × Int
  | 0, k => (I.value * unitFactor k I.unit / gridFactor k I.unit, k)
  | tries + 1, k =>
    match onGrid? I k with
    | some n => (n, k)
    | none => search I tries (k - 1)

/-- Drops the zeros at the end of the digits `n` and scales accordingly. -/
def strip : Nat → Nat → Int → Nat × Int
  | 0, n, k => (n, k)
  | fuel + 1, n, k => if n % 10 = 0 then strip fuel (n / 10) (k + 1) else (n, k)

/-- The shortest digits `n` and power `k` such that `n * 10 ^ k` reads back as the positive finite
word.  Seventeen digits always suffice. -/
def digits (x : Binary64) : Nat × Int :=
  let I := Interval.ofWord x
  let (n, k) := search I 17 (decimalExponent I)
  strip 18 n k

end Bytewright.Shortest
