/-!
# Binary floating-point words

A floating-point number is its 64-bit pattern: a sign, eleven bits of exponent and fifty-two of
fraction.  Two numbers are the same constant when their patterns agree; comparing them as numbers
is a different relation, on which no word that is not a number agrees with itself and the two
zeros agree.
-/

namespace Bytewright

/-- A floating-point number, as its bit pattern. -/
structure Binary64 where
  /-- The pattern: sign, exponent and fraction from the top down. -/
  bits : UInt64
deriving DecidableEq, Repr

namespace Binary64

/-! ### Fields -/

def isNegative (x : Binary64) : Bool := Nat.pow 2 63 ≤ x.bits.toNat

def magnitude (x : Binary64) : Nat := x.bits.toNat % Nat.pow 2 63

def exponent (x : Binary64) : Nat := x.magnitude / Nat.pow 2 52

def fraction (x : Binary64) : Nat := x.magnitude % Nat.pow 2 52

def infinityMagnitude : Nat := 2047 * Nat.pow 2 52

/-- The word is not a number. -/
def isNaN (x : Binary64) : Bool := infinityMagnitude < x.magnitude

def isInfinite (x : Binary64) : Bool := x.magnitude == infinityMagnitude

def isZero (x : Binary64) : Bool := x.magnitude == 0

/-- The word with a given sign and magnitude. -/
def ofMagnitude (negative : Bool) (magnitude : Nat) : Binary64 :=
  ⟨UInt64.ofNat (if negative then magnitude + Nat.pow 2 63 else magnitude)⟩

/-- The word that stands for a missing number. -/
def nan : Binary64 := ofMagnitude false (infinityMagnitude + Nat.pow 2 51)

def infinity (negative : Bool) : Binary64 := ofMagnitude negative infinityMagnitude

/-- The significand of a finite word, its leading bit made explicit. -/
def significand (x : Binary64) : Nat :=
  if x.exponent = 0 then x.fraction else x.fraction + Nat.pow 2 52

/-- The power of two by which the significand of a finite word is scaled. -/
def power (x : Binary64) : Int :=
  if x.exponent = 0 then -1074 else (x.exponent : Int) - 1075

/-! ### Order -/

/-- A key that orders the words other than those that are no numbers; both zeros have key `0`. -/
def key (x : Binary64) : Int := if x.isNegative then -x.magnitude else x.magnitude

/-- Numeric order; nothing when a side is not a number. -/
def compare? (x y : Binary64) : Option Ordering :=
  if x.isNaN || y.isNaN then none else some (compare x.key y.key)

def equals (x y : Binary64) : Bool := !x.isNaN && !y.isNaN && x.key == y.key

def isBelowZero (x : Binary64) : Bool := x.compare? ⟨0⟩ == some .lt

/-! ### Rounding -/

/-- The quotient of two naturals rounded to nearest, ties to even. -/
def roundDiv (num den : Nat) : Nat :=
  let quotient := num / den
  let twice := 2 * (num % den)
  if den < twice ∨ (twice = den ∧ quotient % 2 = 1) then quotient + 1 else quotient

/-- The quotient `num / den * 2 ^ (-shift)` rounded to nearest, ties to even. -/
def roundScaled (num den : Nat) (shift : Int) : Nat :=
  if 0 ≤ shift then roundDiv num (den * Nat.pow 2 shift.toNat)
  else roundDiv (num * Nat.pow 2 (-shift).toNat) den

/-- The power of two of the last place of the word nearest to `num / den`: fifty-three significant
bits, or the least power there is. -/
def lastPlace (num den : Nat) : Int :=
  let guess : Int := (num.log2 : Int) - den.log2 - 52
  let low : Bool := -- the quotient is below `2 ^ (guess + 52)`
    if 0 ≤ guess + 52 then num < den * Nat.pow 2 (guess + 52).toNat
    else num * Nat.pow 2 (-(guess + 52)).toNat < den
  max (-1074) (if low then guess - 1 else guess)

/-- The word nearest to `± num / den`, ties to even; overflow gives an infinity. -/
def ofRatio (negative : Bool) (num den : Nat) : Binary64 :=
  if num = 0 then ofMagnitude negative 0
  else
    let place := lastPlace num den
    let magnitude := (place + 1074).toNat * Nat.pow 2 52 + roundScaled num den place
    ofMagnitude negative (min magnitude infinityMagnitude)

/-- The word nearest to `± m * 2 ^ p`. -/
def ofScaled (negative : Bool) (m : Nat) (p : Int) : Binary64 :=
  if 0 ≤ p then ofRatio negative (m * Nat.pow 2 p.toNat) 1
  else ofRatio negative m (Nat.pow 2 (-p).toNat)

def ofInt (n : Int) : Binary64 := ofRatio (n < 0) n.natAbs 1

/-! ### Arithmetic -/

/-- The machine's own number with this pattern. -/
def toFloat (x : Binary64) : Float := Float.ofBits x.bits

def ofFloat (x : Float) : Binary64 := ⟨x.toBits⟩

def neg (x : Binary64) : Binary64 := ofMagnitude (!x.isNegative) x.magnitude

def add (x y : Binary64) : Binary64 := ofFloat (x.toFloat + y.toFloat)

def sub (x y : Binary64) : Binary64 := ofFloat (x.toFloat - y.toFloat)

def mul (x y : Binary64) : Binary64 := ofFloat (x.toFloat * y.toFloat)

def div (x y : Binary64) : Binary64 := ofFloat (x.toFloat / y.toFloat)

/-- The remainder of the division truncated toward zero.  It is exact and has the sign of the
dividend; an infinite dividend or a zero divisor leaves no number. -/
def rem (x y : Binary64) : Binary64 :=
  if x.isNaN || y.isNaN || x.isInfinite || y.isZero then nan
  else if y.isInfinite || x.isZero then x
  else
    let place := min x.power y.power
    let m := x.significand * Nat.pow 2 (x.power - place).toNat
    let n := y.significand * Nat.pow 2 (y.power - place).toNat
    ofScaled x.isNegative (m % n) place

end Binary64

end Bytewright
