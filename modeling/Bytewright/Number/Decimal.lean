import Bytewright.Number.Shortest

/-!
# Decimal text of floating-point numbers

How floating-point numbers are written and read.  Writing takes the shortest digits and places
the point; the choices are collected in one record.  Reading accepts an optional sign, digits with
an optional point and an optional exponent, and rounds to the nearest word.
-/

namespace Bytewright.Decimal

/-! ### Writing -/

/-- The choices of a written form. -/
structure Format where
  /-- The least power of ten of a leading digit that is written without an exponent. -/
  leastPositional : Int
  /-- The greatest power of ten of a leading digit that is written without an exponent. -/
  greatestPositional : Int
  /-- What a whole number is given after its digits. -/
  wholeMark : String
  exponentMark : String

/-- Numbers from `0.0001` to below `10 ^ 16` are written with a point, always with a place after
it; the others with an exponent after `e` and no plus sign. -/
def plain : Format := ⟨-4, 15, ".0", "e"⟩

def digitsOf (n : Nat) : String := String.ofList (Nat.toDigits 10 n)

def integer (n : Int) : String :=
  if n < 0 then "-" ++ digitsOf n.natAbs else digitsOf n.natAbs

/-- Digits with the point after the first `n` of them. -/
def pointAfter (n : Nat) (ds : List Char) : String :=
  String.ofList (ds.take n) ++ "." ++ String.ofList (ds.drop n)

/-- Digits `ds` whose first one has power `e`, written with a point and no exponent. -/
def positional (f : Format) (ds : List Char) (e : Int) : String :=
  if e < 0 then "0." ++ String.ofList (List.replicate (-e - 1).toNat '0' ++ ds)
  else if (ds.length : Int) ≤ e + 1 then
    String.ofList (ds ++ List.replicate (e + 1 - ds.length).toNat '0') ++ f.wholeMark
  else pointAfter (e + 1).toNat ds

/-- Digits `ds` whose first one has power `e`, written with an exponent. -/
def scientific (f : Format) (ds : List Char) (e : Int) : String :=
  (if ds.length ≤ 1 then String.ofList ds else pointAfter 1 ds) ++ f.exponentMark ++ integer e

def unsigned (f : Format) (x : Binary64) : String :=
  if x.isNaN then "NaN"
  else if x.isInfinite then "inf"
  else if x.isZero then "0" ++ f.wholeMark
  else
    let (n, k) := Shortest.digits x
    let ds := Nat.toDigits 10 n
    let e := k + ds.length - 1
    if f.leastPositional ≤ e && e ≤ f.greatestPositional then positional f ds e
    else scientific f ds e

/-- The text of a number.  What is not a number has no sign. -/
def write (x : Binary64) : String :=
  if x.isNegative && !x.isNaN then "-" ++ unsigned plain x else unsigned plain x

/-! ### Reading -/

def digitValue (c : Char) : Nat := c.toNat - '0'.toNat

def numeral (ds : List Char) : Nat := ds.foldl (fun n c => 10 * n + digitValue c) 0

/-- The digits at the front of a text and what follows them. -/
def spanDigits (cs : List Char) : List Char × List Char := cs.span Char.isDigit

/-- The word nearest to `± m * 10 ^ e`.  Powers far outside the range of a word are settled by the
count of digits, so that no huge power is formed. -/
def ofScientific (negative : Bool) (m : Nat) (e : Int) : Binary64 :=
  let top := (Nat.toDigits 10 m).length + e
  if m = 0 ∨ top < -400 then Binary64.ofMagnitude negative 0
  else if 400 < top then Binary64.infinity negative
  else if 0 ≤ e then Binary64.ofRatio negative (m * Nat.pow 10 e.toNat) 1
  else Binary64.ofRatio negative m (Nat.pow 10 (-e).toNat)

/-- Reads an exponent: a mark, an optional sign and at least one digit, up to the end of the text.
A text without a mark has exponent zero only if it is empty. -/
def exponent? : List Char → Option Int
  | [] => some 0
  | mark :: rest =>
    if mark = 'e' ∨ mark = 'E' then
      let (negative, ds) := match rest with
        | '-' :: ds => (true, ds)
        | '+' :: ds => (false, ds)
        | ds => (false, ds)
      if ds.isEmpty || !ds.all Char.isDigit then none
      else some (if negative then -(numeral ds : Int) else numeral ds)
    else none

/-- Reads a number without a sign: digits, an optional point with digits, an optional exponent.
At least one digit stands beside the point. -/
def unsigned? (negative : Bool) (cs : List Char) : Option Binary64 :=
  let (whole, rest) := spanDigits cs
  let (places, rest) := match rest with
    | '.' :: rest => spanDigits rest
    | rest => ([], rest)
  if whole.isEmpty && places.isEmpty then none
  else
    match exponent? rest with
    | some e => some (ofScientific negative (numeral (whole ++ places)) (e - places.length))
    | none => none

/-- Reads a number without a sign, or one of the words for what is no finite number. -/
def magnitude? (negative : Bool) (cs : List Char) : Option Binary64 :=
  let word := String.ofList (cs.map Char.toLower)
  if word = "nan" then
    some (if negative then Binary64.nan.neg else Binary64.nan)
  else if word = "inf" ∨ word = "infinity" then some (Binary64.infinity negative)
  else unsigned? negative cs

def read? : List Char → Option Binary64
  | '-' :: cs => magnitude? true cs
  | '+' :: cs => magnitude? false cs
  | cs => magnitude? false cs

end Bytewright.Decimal
