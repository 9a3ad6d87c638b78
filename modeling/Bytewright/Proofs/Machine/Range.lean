import Mathlib
import Bytewright.Machine.Call

/-!
# Ranges

The loop that builds a range stops at the first term that is not before the bound, or when the next
term is no word.  Such a term lies behind every bound, so nothing is left out.
-/

namespace Bytewright

open Checked List

namespace Checked

/-- The integer `z` lies strictly before `stop` in the direction of `step`. -/
def Precedes (stop step z : Int) : Prop := (0 < step ∧ z < stop) ∨ (step < 0 ∧ stop < z)

instance (stop step z : Int) : Decidable (Precedes stop step z) :=
  inferInstanceAs (Decidable (_ ∨ _))

/-- The term at place `k` of the progression from `start`, if it lies before `stop`. -/
def term? (start stop step : Int) (k : Nat) : Option Int :=
  if Precedes stop step (start + k * step) then some (start + k * step) else none

/-- The loop that builds a progression, given up after a number of turns. -/
def loopWithin (stop step : Int64) : Nat → Int64 → List Int64 → Option (List Int64)
  | 0, _, _ => none
  | turns + 1, i, done =>
    if Before stop step i then
      match add? i step with
      | some next => loopWithin stop step turns next (i :: done)
      | none => some (i :: done).reverse
    else some done.reverse

variable {start stop step : Int}

theorem term?_zero :
    term? start stop step 0 = if Precedes stop step start then some start else none := by
  simp [term?]

theorem term?_succ (k : Nat) :
    term? start stop step (k + 1) = term? (start + step) stop step k := by
  have hterm : start + ((k + 1 : Nat) : Int) * step = start + step + k * step := by
    push_cast
    ring
  rw [term?, term?, hterm]

/-! ### Behind the last term -/

theorem term?_eq_none (h : ¬Precedes stop step start) (k : Nat) :
    term? start stop step k = none := by
  refine if_neg ?_
  unfold Precedes at h ⊢
  have hk : 0 ≤ (k : Int) := Int.natCast_nonneg k
  rintro (⟨hpos, hlt⟩ | ⟨hneg, hlt⟩)
  · nlinarith [not_lt.1 fun hlt => h (.inl ⟨hpos, hlt⟩)]
  · nlinarith [not_lt.1 fun hlt => h (.inr ⟨hneg, hlt⟩)]

theorem not_precedes_of_overflow {stop step i : Int64} (h : add? i step = none) :
    ¬Precedes stop.toInt step.toInt (i.toInt + step.toInt) := by
  have hfits : ¬Fits (i.toInt + step.toInt) := by
    intro hfits
    rw [add?, narrow?, if_pos hfits] at h
    cases h
  have hi := i.le_toInt
  have hi' := i.toInt_lt
  have hstop := stop.le_toInt
  have hstop' := stop.toInt_lt
  unfold Fits at hfits
  rintro (⟨hpos, hlt⟩ | ⟨hneg, hlt⟩) <;> omega

/-! ### The loop -/

theorem exists_terms (stop step i : Int64) (done : List Int64) :
    ∃ items : List Int64, progressionFrom stop step i done = done.reverse ++ items ∧
      (∀ k, (items.map Int64.toInt)[k]? = term? i.toInt stop.toInt step.toInt k) ∧
      ∀ turns, items.length < turns →
        loopWithin stop step turns i done = some (done.reverse ++ items) := by
  fun_induction progressionFrom stop step i done with
  | case1 i done hbefore next hnext ih =>
    obtain ⟨items, hitems, hterms, hturns⟩ := ih
    have hsum : next.toInt = i.toInt + step.toInt := toInt_of_narrow? hnext
    refine ⟨i :: items, by simpa using hitems, fun k => ?_, fun turns hlt => ?_⟩
    · cases k with
      | zero => exact (term?_zero.trans (if_pos hbefore)).symm
      | succ k => rw [term?_succ, ← hsum, ← hterms k, map_cons, getElem?_cons_succ]
    · cases turns with
      | zero => cases hlt
      | succ turns =>
        rw [loopWithin, if_pos hbefore, hnext]
        simpa using hturns turns (Nat.lt_of_succ_lt_succ hlt)
  | case2 i done hbefore hnone =>
    refine ⟨[i], by simp, fun k => ?_, fun turns hlt => ?_⟩
    · cases k with
      | zero => exact (term?_zero.trans (if_pos hbefore)).symm
      | succ k => rw [term?_succ, term?_eq_none (not_precedes_of_overflow hnone)]; rfl
    · cases turns with
      | zero => cases hlt
      | succ turns =>
        rw [loopWithin, if_pos hbefore, hnone]
        simp
  | case3 i done hnot =>
    refine ⟨[], (append_nil _).symm, fun k => (term?_eq_none hnot k).symm, fun turns hlt => ?_⟩
    cases turns with
    | zero => cases hlt
    | succ turns => rw [loopWithin, if_neg hnot, append_nil]

end Checked

theorem Store.list_newList (s : Store) (items : List Value) :
    ∃ r t, s.newList items = (.list r, t) ∧ t.list r = items ∧ s.lists.size ≤ r.index := by
  refine ⟨⟨s.lists.size⟩, _, rfl, ?_, le_rfl⟩
  simp [Store.list]

/-- A range with a step that is not zero is a new list of exactly the terms `start + k * step`, for
`k` from zero on, that lie before `stop`, over the unbounded integers.  The loop that builds it
comes to its end after as many turns as there are terms. -/
theorem range_is_progression (s : Store) (globals : ScopeRef) {args : List Value}
    {start stop step : Int64} (hargs : rangeBounds args = .ok (start, stop, step))
    (hstep : step ≠ 0) :
    ∃ (items : List Int64) (r : ListRef) (t : Store),
      s.callBuiltin globals .range args [] = .ok (.list r, t) ∧ t.list r = items.map .int ∧
      s.lists.size ≤ r.index ∧
      (∀ k, (items.map Int64.toInt)[k]? = term? start.toInt stop.toInt step.toInt k) ∧
      ∀ turns, items.length < turns → loopWithin stop step turns start [] = some items := by
  obtain ⟨items, hitems, hterms, hturns⟩ := exists_terms stop step start []
  obtain ⟨r, t, hnew, hlist, hfresh⟩ := s.list_newList (items.map .int)
  refine ⟨items, r, t, ?_, hlist, hfresh, hterms, hturns⟩
  have hprogression : progression start stop step = items := hitems
  show (rangeBounds args >>= _) = _
  rw [hargs, ← hnew, ← hprogression]
  exact if_neg hstep

/-- Two terms lie before the greatest word, and the third would be no word. -/
theorem range_near_greatest :
    rangeBounds [.int 9223372036854775800, .int Int64.maxValue, .int 5] =
        .ok (9223372036854775800, Int64.maxValue, 5) ∧
      ∃ (items : List Int64) (r : ListRef) (t : Store),
        ({} : Store).callBuiltin ⟨0⟩ .range
            [.int 9223372036854775800, .int Int64.maxValue, .int 5] [] = .ok (.list r, t) ∧
          t.list r = items.map .int ∧
          items.map Int64.toInt = [9223372036854775800, 9223372036854775805] := by
  have hbounds : rangeBounds [.int 9223372036854775800, .int Int64.maxValue, .int 5] =
      .ok (9223372036854775800, Int64.maxValue, 5) := rfl
  obtain ⟨items, r, t, hcall, hlist, -, hterms, -⟩ :=
    range_is_progression {} ⟨0⟩ hbounds (by decide)
  refine ⟨hbounds, items, r, t, hcall, hlist, List.ext_getElem? fun k => (hterms k).trans ?_⟩
  match k with
  | 0 | 1 => decide
  | k + 2 =>
    rw [term?_succ, term?_succ, term?_eq_none (by decide)]
    rfl

end Bytewright
