import Bytewright.Proofs.Machine.InRange

/-!
# Exact arithmetic

The machine refuses the remainder of the least word by `-1`, which is zero, because the quotient
that belongs to it is no word.
-/

namespace Bytewright

open Checked

/-! ### Results over the unbounded integers -/

/-- A quotient rounded toward negative infinity, and the remainder with the sign of the divisor. -/
def Division (x y q r : Int) : Prop := x = q * y + r ∧ ((0 ≤ r ∧ r < y) ∨ (y < r ∧ r ≤ 0))

instance (x y q r : Int) : Decidable (Division x y q r) := inferInstanceAs (Decidable (_ ∧ _))

variable {q r : Int} {n : Int64}

theorem division_iff {x y : Int} : Division x y q r ↔ y ≠ 0 ∧ x.fdiv y = q ∧ x.fmod y = r := by
  unfold Division
  rcases lt_trichotomy y 0 with hy | rfl | hy
  · rw [Int.fdiv_fmod_unique' hy, Int.mul_comm y q]
    omega
  · omega
  · rw [Int.fdiv_fmod_unique hy, Int.mul_comm y q]
    omega

theorem Division.fits_quotient_iff {x y : Int64} (h : Division x.toInt y.toInt q r) :
    Fits q ↔ ¬(x = Int64.minValue ∧ y = -1) := by
  obtain ⟨hx, hr⟩ := h
  have hfits := Direct.fits_toInt x
  unfold Fits at hfits ⊢
  rw [← Int64.toInt_inj, ← Int64.toInt_inj, show (-1 : Int64).toInt = -1 from rfl,
    show Int64.minValue.toInt = -9223372036854775808 from rfl]
  generalize x.toInt = x at *
  generalize y.toInt = y at *
  by_cases hy : y = -1
  · subst hy
    omega
  by_cases hy' : y = 1
  · subst hy'
    omega
  · -- the quotient is at most half as large as the dividend, up to the rounding
    refine iff_of_true ?_ fun h => hy h.2
    rcases hr with ⟨hr₀, hr₁⟩ | ⟨hr₁, hr₀⟩
    · have hpos : 2 ≤ y := by omega
      exact ⟨by nlinarith [hfits.1], by nlinarith [hfits.2]⟩
    · have hneg : y ≤ -2 := by omega
      exact ⟨by nlinarith [hfits.2], by nlinarith [hfits.1]⟩

namespace ArithOp

variable {op : ArithOp} {x y : Int64} {z : Int} {e : Except Failure Int64}

/-- The exact result of an operator. -/
def IsResult (op : ArithOp) (x y z : Int) : Prop :=
  match op with
  | add => z = x + y
  | subtract => z = x - y
  | multiply => z = x * y
  | divide => ∃ r, Division x y z r
  | modulo => ∃ q, Division x y q z

def divides : ArithOp → Bool
  | divide | modulo => true
  | _ => false

/-- The remainder of the least word by `-1`. -/
def LeastModulo (op : ArithOp) (x y : Int64) : Prop :=
  op = modulo ∧ x = Int64.minValue ∧ y = -1

theorem existsUnique_isResult (op : ArithOp) {x y : Int} (h : op.divides = true → y ≠ 0) :
    ∃! z, op.IsResult x y z := by
  cases op with
  | add | subtract | multiply => exact ⟨_, rfl, fun _ => id⟩
  | divide =>
    refine ⟨x.fdiv y, ⟨x.fmod y, division_iff.2 ⟨h rfl, rfl, rfl⟩⟩, ?_⟩
    rintro z ⟨r, hdiv⟩
    exact (division_iff.1 hdiv).2.1.symm
  | modulo =>
    refine ⟨x.fmod y, ⟨x.fdiv y, division_iff.2 ⟨h rfl, rfl, rfl⟩⟩, ?_⟩
    rintro z ⟨q, hdiv⟩
    exact (division_iff.1 hdiv).2.2.symm

/-! ### Results of the machine -/

theorem narrow?_eq_none_iff : narrow? z = none ↔ ¬Fits z := by
  simp [narrow?]

theorem onInts_of_isResult (h : op.IsResult x.toInt y.toInt z) (hleast : ¬op.LeastModulo x y) :
    op.onInts x y = (narrow? z).elim (.error .overflow) .ok := by
  cases op with
  | add | subtract | multiply =>
    subst h
    simp only [onInts, add?, sub?, mul?]
    cases narrow? _ <;> rfl
  | divide =>
    obtain ⟨r, hdiv⟩ := h
    obtain ⟨hy, rfl, -⟩ := division_iff.1 hdiv
    have hy' : y ≠ 0 := fun h => hy (by rw [h]; rfl)
    simp only [onInts, if_neg hy', div?]
    cases narrow? _ <;> rfl
  | modulo =>
    obtain ⟨q, hdiv⟩ := h
    have hq : Fits q := hdiv.fits_quotient_iff.2 fun h => hleast ⟨rfl, h⟩
    obtain ⟨hy, rfl, rfl⟩ := division_iff.1 hdiv
    have hy' : y ≠ 0 := fun h => hy (by rw [h]; rfl)
    have hquotient : div? x y = some (Int64.ofInt (x.toInt.fdiv y.toInt)) := if_pos hq
    simp only [onInts, if_neg hy', mod?, hquotient]
    cases narrow? _ <;> rfl

theorem onInts_of_leastModulo (h : op.LeastModulo x y) : op.onInts x y = .error .overflow := by
  obtain ⟨rfl, rfl, rfl⟩ := h
  rfl

theorem onInts_zero (h : op.divides = true) (x : Int64) :
    op.onInts x 0 = .error .divisionByZero := by
  cases op with
  | divide | modulo => rfl
  | _ => cases h

/-- What becomes of an operator: its exact result if this is a word, and else a failure. -/
inductive Ends (op : ArithOp) (x y : Int64) : Except Failure Int64 → Prop
  | result {n : Int64} (hn : op.IsResult x.toInt y.toInt n.toInt) (hleast : ¬op.LeastModulo x y) :
      Ends op x y (.ok n)
  | refused {z : Int} (hz : op.IsResult x.toInt y.toInt z) (hfits : ¬Fits z) :
      Ends op x y (.error .overflow)
  | least (hleast : op.LeastModulo x y) : Ends op x y (.error .overflow)
  | zero (hop : op.divides = true) (hy : y = 0) : Ends op x y (.error .divisionByZero)

theorem ends_onInts (op : ArithOp) (x y : Int64) : op.Ends x y (op.onInts x y) := by
  by_cases hzero : op.divides = true ∧ y = 0
  · obtain ⟨hop, rfl⟩ := hzero
    rw [onInts_zero hop]
    exact .zero hop rfl
  by_cases hleast : op.LeastModulo x y
  · rw [onInts_of_leastModulo hleast]
    exact .least hleast
  obtain ⟨z, hz, -⟩ := op.existsUnique_isResult (x := x.toInt) (y := y.toInt) fun hop =>
    Direct.toInt_ne_zero fun hy => hzero ⟨hop, hy⟩
  rw [onInts_of_isResult hz hleast]
  cases hn : narrow? z with
  | none => exact .refused hz (narrow?_eq_none_iff.1 hn)
  | some n => exact .result (toInt_of_narrow? hn ▸ hz) hleast

theorem Ends.onInts_eq (h : op.Ends x y e) : op.onInts x y = e := by
  cases h with
  | result hn hleast =>
    rw [onInts_of_isResult hn hleast, narrow?_toInt]
    rfl
  | refused hz hfits =>
    by_cases hleast : op.LeastModulo x y
    · exact onInts_of_leastModulo hleast
    · rw [onInts_of_isResult hz hleast, narrow?_eq_none_iff.2 hfits]
      rfl
  | least hleast => exact onInts_of_leastModulo hleast
  | zero hop hy => exact hy ▸ onInts_zero hop x

theorem onInts_eq_iff : op.onInts x y = e ↔ op.Ends x y e :=
  ⟨fun h => h ▸ op.ends_onInts x y, Ends.onInts_eq⟩

theorem IsResult.ne_zero {x y : Int} (h : op.IsResult x y z) (hop : op.divides = true) : y ≠ 0 := by
  cases op with
  | divide | modulo =>
    obtain ⟨w, hdiv⟩ := h
    exact (division_iff.1 hdiv).1
  | _ => cases hop

theorem IsResult.unique {x y z' : Int} (h : op.IsResult x y z) (h' : op.IsResult x y z') : z = z' :=
  (op.existsUnique_isResult h.ne_zero).unique h h'

theorem onInts_eq_ok_iff :
    op.onInts x y = .ok n ↔ op.IsResult x.toInt y.toInt n.toInt ∧ ¬op.LeastModulo x y := by
  rw [onInts_eq_iff]
  exact ⟨fun | .result hn hleast => ⟨hn, hleast⟩, fun h => .result h.1 h.2⟩

theorem onInts_eq_overflow_iff :
    op.onInts x y = .error .overflow ↔
      (∃ z, op.IsResult x.toInt y.toInt z ∧ ¬Fits z) ∨ op.LeastModulo x y := by
  rw [onInts_eq_iff]
  constructor
  · rintro (_ | ⟨hz, hfits⟩ | hleast)
    · exact .inl ⟨_, hz, hfits⟩
    · exact .inr hleast
  · rintro (⟨z, hz, hfits⟩ | hleast)
    · exact .refused hz hfits
    · exact .least hleast

theorem onInts_eq_divisionByZero_iff :
    op.onInts x y = .error .divisionByZero ↔ op.divides = true ∧ y = 0 := by
  rw [onInts_eq_iff]
  exact ⟨fun | .zero hop hy => ⟨hop, hy⟩, fun h => .zero h.1 h.2⟩

theorem onInts_cases (op : ArithOp) (x y : Int64) :
    (∃ n, op.onInts x y = .ok n) ∨ op.onInts x y = .error .overflow ∨
      op.onInts x y = .error .divisionByZero := by
  have hends := op.ends_onInts x y
  generalize op.onInts x y = e at hends ⊢
  cases hends <;> simp

end ArithOp

/-! ### Operators on values -/

/-- The outcome is a failure of this kind. -/
def FailsWith (outcome : Except Failure (Value × Store)) (kind : String) : Prop :=
  ∃ e, outcome = .error e ∧ e.kind = kind

section

variable {s : Store} {op : ArithOp} {a b : Value} {x y : Int64}

theorem arith_of_asInt? (s : Store) (op : ArithOp) (ha : a.asInt? = some x)
    (hb : b.asInt? = some y) : s.arith op a b = (op.onInts x y).map fun n => (.int n, s) := by
  simp only [Store.arith, ha, hb]

variable (ha : a.asInt? = some x) (hb : b.asInt? = some y)
include ha hb

theorem arith_eq_ok_iff : s.arith op a b = .ok (.int n, s) ↔ op.onInts x y = .ok n := by
  rw [arith_of_asInt? s op ha hb]
  cases op.onInts x y <;> simp [Except.map]

theorem failsWith_iff {kind : String} :
    FailsWith (s.arith op a b) kind ↔ ∃ e, op.onInts x y = .error e ∧ e.kind = kind := by
  rw [FailsWith, arith_of_asInt? s op ha hb]
  cases op.onInts x y <;> simp [Except.map]

theorem failsWith_overflow_iff :
    FailsWith (s.arith op a b) "OverflowError" ↔ op.onInts x y = .error .overflow := by
  rw [failsWith_iff ha hb]
  rcases op.onInts_cases x y with ⟨n, h⟩ | h | h <;> simp [h, Failure.kind]

theorem failsWith_zeroDivision_iff :
    FailsWith (s.arith op a b) "ZeroDivisionError" ↔ op.onInts x y = .error .divisionByZero := by
  rw [failsWith_iff ha hb]
  rcases op.onInts_cases x y with ⟨n, h⟩ | h | h <;> simp [h, Failure.kind]

end

/-- An operator on integers and truth values gives the exact result if it is a word, and is refused
otherwise; a division by zero is refused as such.  The one exception is the remainder of the least
word by `-1`, which is refused though it is zero.  The machine comes to this by dividing toward zero
and correcting the quotient and the remainder. -/
theorem arith_exact_or_refused (s : Store) (op : ArithOp) {a b : Value} {x y : Int64}
    (ha : a.asInt? = some x) (hb : b.asInt? = some y) :
    ((op.divides = true → y ≠ 0) → ∃! z, op.IsResult x.toInt y.toInt z) ∧
      (∀ n, s.arith op a b = .ok (.int n, s) ↔
        op.IsResult x.toInt y.toInt n.toInt ∧ ¬op.LeastModulo x y) ∧
      (FailsWith (s.arith op a b) "OverflowError" ↔
        (∃ z, op.IsResult x.toInt y.toInt z ∧ ¬Fits z) ∨ op.LeastModulo x y) ∧
      (FailsWith (s.arith op a b) "ZeroDivisionError" ↔ op.divides = true ∧ y = 0) ∧
      ((∃ n, s.arith op a b = .ok (.int n, s)) ∨ FailsWith (s.arith op a b) "OverflowError" ∨
        FailsWith (s.arith op a b) "ZeroDivisionError") ∧
      (∀ q r, s.arith .divide a b = .ok (.int q, s) → s.arith .modulo a b = .ok (.int r, s) →
        Division x.toInt y.toInt q.toInt r.toInt) ∧
      Direct.arith s op a b = .ok (s.arith op a b) := by
  simp only [arith_eq_ok_iff ha hb, failsWith_overflow_iff ha hb, failsWith_zeroDivision_iff ha hb]
  refine ⟨fun hy => op.existsUnique_isResult fun hop => Direct.toInt_ne_zero (hy hop),
    fun n => ArithOp.onInts_eq_ok_iff, ArithOp.onInts_eq_overflow_iff,
    ArithOp.onInts_eq_divisionByZero_iff, op.onInts_cases x y, fun q r hq hr => ?_,
    Direct.arith_eq_ok s op a b⟩
  obtain ⟨⟨r', hdiv⟩, -⟩ := ArithOp.onInts_eq_ok_iff.1 hq
  have hr' : ArithOp.modulo.IsResult x.toInt y.toInt r' := ⟨_, hdiv⟩
  exact hr'.unique (ArithOp.onInts_eq_ok_iff.1 hr).1 ▸ hdiv

/-- Minus seven divided by two, by three and by zero, and the least word doubled. -/
theorem arith_of_negatives :
    ({} : Store).arith .divide (.int (-7)) (.int 2) = .ok (.int (-4), {}) ∧
      ({} : Store).arith .modulo (.int (-7)) (.int 3) = .ok (.int 2, {}) ∧
      FailsWith (({} : Store).arith .divide (.bool true) (.bool false)) "ZeroDivisionError" ∧
      FailsWith (({} : Store).arith .add (.int Int64.minValue) (.int Int64.minValue))
        "OverflowError" := by
  obtain ⟨-, hquotient, -⟩ :=
    arith_exact_or_refused {} .divide (a := .int (-7)) (b := .int 2) rfl rfl
  obtain ⟨-, hremainder, -⟩ :=
    arith_exact_or_refused {} .modulo (a := .int (-7)) (b := .int 3) rfl rfl
  obtain ⟨-, -, -, hzero, -⟩ :=
    arith_exact_or_refused {} .divide (a := .bool true) (b := .bool false) rfl rfl
  obtain ⟨-, -, hoverflow, -⟩ :=
    arith_exact_or_refused {} .add (a := .int Int64.minValue) (b := .int Int64.minValue) rfl rfl
  refine ⟨(hquotient (-4)).2 ⟨⟨1, by decide⟩, by simp [ArithOp.LeastModulo]⟩,
    (hremainder 2).2 ⟨⟨-3, by decide⟩, by simp [ArithOp.LeastModulo]⟩, hzero.2 ⟨rfl, rfl⟩,
    hoverflow.2 (.inl ⟨_, rfl, by decide⟩)⟩

/-- The remainder of the least word by `-1` is refused, though it is zero. -/
theorem leastModulo_refused :
    FailsWith (({} : Store).arith .modulo (.int Int64.minValue) (.int (-1))) "OverflowError" ∧
      ArithOp.modulo.IsResult Int64.minValue.toInt (-1) 0 ∧ Fits 0 :=
  ⟨⟨.overflow, rfl, rfl⟩, ⟨9223372036854775808, by decide⟩, by decide⟩

end Bytewright
