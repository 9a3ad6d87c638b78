import Bytewright.Proofs.Machine.Unlimited

/-!
# Runs above waiting frames

A run does not look at the frames that wait below its own.  Where it ended without them it returns
to them: with a value, with an exception, or not at all.
-/

namespace Bytewright

open List

/-- The run above further callers, `n` steps later. -/
def Run.above (base : List Frame) (n : Nat) (r : Run) : Run :=
  { r with callers := r.callers ++ base, steps := n + r.steps }

def Run.comeBack (v : Value) (steps : Nat) (m : Memory) : List Frame → Progress
  | [] => .ended (.value v) m
  | c :: callers => .running ⟨c.push v, callers, steps, m⟩

def Progress.above (base : List Frame) (n steps : Nat) : Progress → Progress
  | .running r => .running (r.above base n)
  | .ended (.value v) m => Run.comeBack v steps m base
  | .ended (.raised e entries) m => Run.escape e steps m entries base
  | .ended (.fatal cause active) m => .ended (.fatal cause (active ++ base.map (·.code.name))) m
  | .ended .crashed m => .ended .crashed m

namespace Run

variable {r r' : Run} {o : Outcome} {m : Memory}

theorem unwind_above (base : List Frame) (n : Nat) (e : Exception) (steps : Nat) (m : Memory)
    (f : Frame) (callers : List Frame) (index : Nat) (entries : List TraceEntry) (again : Bool) :
    unwind e (n + steps) m f (callers ++ base) index entries again =
      (unwind e steps m f callers index entries again).above base n (n + steps) := by
  induction callers generalizing f index entries again with
  | nil =>
    rw [unwind_eq, unwind_eq]
    dsimp only
    split
    · rfl
    · rfl
  | cons c callers ih =>
    rw [unwind_eq, unwind_eq]
    dsimp only
    split
    · rfl
    · exact ih c _ _ _

theorem proceed_above (base : List Frame) (n : Nat) (r : Run) :
    (r.above base n).proceed = r.proceed.above base n (n + r.steps + 1) := by
  unfold proceed
  dsimp only [above]
  cases r.frame.code.code[r.frame.ip]? with
  | none =>
    simp only [cutOff, active, Progress.above, map_cons, map_append, cons_append]
  | some ins =>
    dsimp only
    cases execute ins r.frame.ip ⟨r.frame.ahead, r.memory⟩ with
    | ok signal m =>
      cases signal with
      | next => rfl
      | ret v =>
        cases r.callers with
        | nil => cases base <;> rfl
        | cons c callers => rfl
      | call callee => rfl
    | error stop m =>
      cases stop with
      | raise e entries again =>
        exact unwind_above base n e (r.steps + 1) m.memory m.frame r.callers r.frame.ip
          entries again
      | fatal cause =>
        simp only [active, Progress.above, map_cons, map_append, cons_append]
      | crash => rfl

theorem Proceeds.above (h : r.Proceeds r') (base : List Frame) (n : Nat) :
    (r.above base n).Proceeds (r'.above base n) := by
  induction h with
  | refl => exact .refl
  | @tail r₁ r₂ _ hnext ih =>
    refine ih.tail ?_
    rw [proceed_above, hnext]
    rfl

/-! ### Outcomes -/

def outcome? : Nat → Run → Option (Outcome × Memory)
  | 0, _ => none
  | fuel + 1, r =>
    match r.proceed with
    | .running r => outcome? fuel r
    | .ended o m => some (o, m)

theorem finishes_of_outcome? {fuel : Nat} (h : outcome? fuel r = some (o, m)) : r.Finishes o m := by
  induction fuel generalizing r with
  | zero => cases h
  | succ fuel ih =>
    rw [outcome?] at h
    cases hr : r.proceed with
    | running r' =>
      rw [hr] at h
      exact (Finishes.of_proceed hr).2 (ih h)
    | ended o' m' =>
      rw [hr] at h
      cases h
      exact ⟨r, .refl, hr⟩

theorem Finishes.exists_outcome? (h : r.Finishes o m) :
    ∃ k, ∀ fuel ≥ k, outcome? fuel r = some (o, m) := by
  obtain ⟨last, hlast, hended⟩ := h
  induction hlast using Relation.ReflTransGen.head_induction_on with
  | refl =>
    refine ⟨1, fun fuel hfuel => ?_⟩
    obtain ⟨fuel, rfl⟩ := Nat.exists_eq_add_of_le' hfuel
    rw [outcome?, hended]
  | @head r r' hnext _ ih =>
    obtain ⟨k, hk⟩ := ih
    refine ⟨k + 1, fun fuel hfuel => ?_⟩
    obtain ⟨fuel, rfl⟩ : ∃ n, fuel = n + 1 := Nat.exists_eq_add_one.2 (by omega)
    rw [outcome?, hnext]
    exact hk fuel (by omega)

/-- The run goes on for ever. -/
def Endless (r : Run) : Prop := ∀ r', r.Proceeds r' → ∃ r'', r'.proceed = .running r''

theorem finishes_or_endless (r : Run) : (∃ o m, r.Finishes o m) ∨ r.Endless := by
  by_contra h
  rw [not_or] at h
  refine h.2 fun r' hr' => ?_
  cases hproceed : r'.proceed with
  | running r'' => exact ⟨r'', rfl⟩
  | ended o m => exact (h.1 ⟨o, m, r', hr', hproceed⟩).elim

theorem Endless.outcome?_eq_none (h : r.Endless) (fuel : Nat) : outcome? fuel r = none := by
  cases hout : outcome? fuel r with
  | none => rfl
  | some p =>
    obtain ⟨last, hlast, hended⟩ := finishes_of_outcome? hout
    obtain ⟨r', hr'⟩ := h last hlast
    rw [hended] at hr'
    cases hr'

theorem Endless.of_proceeds (h : r.Proceeds r') (hr' : r'.Endless) : r.Endless := by
  rcases finishes_or_endless r with ⟨o, m, hfinishes⟩ | hr
  · obtain ⟨last, hlast, hended⟩ := (Finishes.of_proceeds h).1 hfinishes
    obtain ⟨r'', hr''⟩ := hr' last hlast
    rw [hended] at hr''
    cases hr''
  · exact hr

theorem Endless.above (h : r.Endless) (base : List Frame) (n : Nat) : (r.above base n).Endless := by
  have hreach {R : Run} (hR : (r.above base n).Proceeds R) :
      ∃ r', R = r'.above base n ∧ r.Proceeds r' := by
    induction hR with
    | refl => exact ⟨r, rfl, .refl⟩
    | tail _ hnext ih =>
      obtain ⟨r', rfl, hr'⟩ := ih
      obtain ⟨r'', hr''⟩ := h r' hr'
      rw [proceed_above, hr''] at hnext
      cases hnext
      exact ⟨r'', rfl, hr'.tail hr''⟩
  intro R hR
  obtain ⟨r', rfl, hr'⟩ := hreach hR
  obtain ⟨r'', hr''⟩ := h r' hr'
  exact ⟨r''.above base n, by rw [proceed_above, hr'']; rfl⟩

end Run

end Bytewright
