/-!
# Checked 64-bit arithmetic

Integers of fragments and of the machine are 64-bit signed words.  An operation is computed over
the unbounded integers first and narrowed afterwards; a result that does not fit is refused
instead of wrapped.
-/

namespace Bytewright.Checked

/-- The value `n` lies in the range of a 64-bit signed word. -/
def Fits (n : Int) : Prop := -9223372036854775808 ≤ n ∧ n < 9223372036854775808

instance (n : Int) : Decidable (Fits n) := inferInstanceAs (Decidable (_ ∧ _))

/-- The word with value `n`, if `n` lies in range. -/
def narrow? (n : Int) : Option Int64 :=
  if Fits n then some (Int64.ofInt n) else none

def add? (x y : Int64) : Option Int64 := narrow? (x.toInt + y.toInt)

def sub? (x y : Int64) : Option Int64 := narrow? (x.toInt - y.toInt)

def mul? (x y : Int64) : Option Int64 := narrow? (x.toInt * y.toInt)

def neg? (x : Int64) : Option Int64 := narrow? (-x.toInt)

/-- Quotient toward negative infinity, or nothing.  Only the least word divided by `-1` has none.
The divisor is taken to be nonzero. -/
def div? (x y : Int64) : Option Int64 := narrow? (x.toInt.fdiv y.toInt)

/-- Remainder with the sign of the divisor, refused exactly where the quotient is.
The divisor is taken to be nonzero. -/
def mod? (x y : Int64) : Option Int64 :=
  match div? x y with
  | some _ => narrow? (x.toInt.fmod y.toInt)
  | none => none

/-! ### Narrowing -/

theorem toInt_of_narrow? {n : Int} {w : Int64} (h : narrow? n = some w) : w.toInt = n := by
  unfold narrow? at h
  split at h
  · next fits =>
    obtain ⟨lo, hi⟩ := fits
    cases h
    exact Int64.toInt_ofInt_of_le (by simpa using lo) (by simpa using hi)
  · cases h

theorem narrow?_toInt (w : Int64) : narrow? w.toInt = some w := by
  have fits : Fits w.toInt := ⟨w.le_toInt, w.toInt_lt⟩
  simp [narrow?, fits]

/-! ### Arithmetic progressions -/

/-- The word `i` lies strictly before `stop` in the direction of `step`. -/
def Before (stop step i : Int64) : Prop :=
  (0 < step.toInt ∧ i.toInt < stop.toInt) ∨ (step.toInt < 0 ∧ stop.toInt < i.toInt)

instance (stop step i : Int64) : Decidable (Before stop step i) :=
  inferInstanceAs (Decidable (_ ∨ _))

/-- The progression from `i` on, behind the terms already `done` (latest first).  It ends at the
first term that is not before `stop`, or where the next term would leave the range of a word. -/
def progressionFrom (stop step i : Int64) (done : List Int64) : List Int64 :=
  if Before stop step i then
    match _h : add? i step with
    | some next => progressionFrom stop step next (i :: done)
    | none => (i :: done).reverse
  else done.reverse
termination_by (if 0 < step.toInt then stop.toInt - i.toInt else i.toInt - stop.toInt).toNat
decreasing_by
  rename_i before
  have := toInt_of_narrow? _h
  unfold Before at before
  split <;> omega

/-- All words `start + k * step`, `k = 0, 1, …`, strictly before `stop` in the direction of
`step`, in order. -/
def progression (start stop step : Int64) : List Int64 := progressionFrom stop step start []

end Bytewright.Checked
