import Bytewright.Proofs.Machine.Unlimited

/-!
# Limits that are not reached

A limit on the number of instructions makes every run end.  A run that no limit cuts off is the same
under all higher limits.
-/

namespace Bytewright

/-- Each limit is at most the other one. -/
structure Limits.Within (l l' : Limits) : Prop where
  callDepth_le : l.callDepth ≤ l'.callDepth
  steps_le : ∀ n', l'.steps = some n' → ∃ n, l.steps = some n ∧ n ≤ n'
  stackSize_le : l.stackSize ≤ l'.stackSize

namespace Run

variable {l l' : Limits} {r r' : Run}

theorem passedLimit?_eq_none_iff : r.passedLimit? l = none ↔
    (∀ n, l.steps = some n → r.steps ≤ n) ∧ r.frame.stack.length ≤ l.stackSize := by
  unfold passedLimit?
  cases l.steps with
  | none => simp
  | some n => simp

theorem passedLimit?_of_within (h : l.Within l') (hr : r.passedLimit? l = none) :
    r.passedLimit? l' = none := by
  rw [passedLimit?_eq_none_iff] at hr ⊢
  refine ⟨fun n' hn' => ?_, hr.2.trans h.stackSize_le⟩
  obtain ⟨n, hn, hle⟩ := h.steps_le n' hn'
  exact (hr.1 n hn).trans hle

/-! ### The number of instructions -/

theorem steps_of_proceed (h : r.proceed = .running r') : r'.steps = r.steps + 1 := by
  obtain ⟨ins, -, hcontinues⟩ := exists_continues h
  cases hcontinues with
  | next => rfl
  | ret => rfl
  | call => rfl
  | raise _ hr => exact (exists_handler_of_unwind hr).1

theorem steps_of_advance (h : r.advance l = .running r') :
    r'.steps = r.steps + 1 ∧ ∀ n, l.steps = some n → r'.steps ≤ n := by
  have hsteps : r'.steps = r.steps + 1 := steps_of_proceed (proceed_of_advance h)
  rw [advance_eq] at h
  split_ifs at h with hi
  · have hended : r.proceed = r.cutOff (.fellOff r.frame.code.name) := by rw [proceed, hi]
    rw [hended] at h
    cases h
  · split at h
    · cases h
    · next hpassed =>
      exact ⟨hsteps, fun n hn => hsteps ▸ (passedLimit?_eq_none_iff.1 hpassed).1 n hn⟩

theorem go_of_steps {n fuel : Nat} (hn : l.steps = some n) (hr : r.steps ≤ n)
    (hfuel : n < r.steps + fuel) : ∃ p, go l fuel r = some p := by
  induction fuel generalizing r with
  | zero => omega
  | succ fuel ih =>
    rw [go]
    cases hr' : r.advance l with
    | ended o m => exact ⟨(o, m), rfl⟩
    | running r' =>
      obtain ⟨hsteps, hle⟩ := steps_of_advance hr'
      exact ih (hle n hn) (by omega)

/-! ### Higher limits -/

theorem advance_of_within (h : l.Within l') (r : Run) :
    r.advance l' = r.advance l ∨
      ∃ cause active m, cause.ofLimit = true ∧ r.advance l = .ended (.fatal cause active) m := by
  rw [advance_eq l, advance_eq l']
  split_ifs
  · exact Or.inl rfl
  · cases hpassed : passedLimit? l { r with steps := r.steps + 1 } with
    | some cause => exact Or.inr ⟨cause, _, _, ofLimit_of_passedLimit? hpassed, rfl⟩
    | none =>
      rw [passedLimit?_of_within h hpassed]
      cases r.proceed with
      | ended o m => exact Or.inl rfl
      | running r' =>
        dsimp only [entering]
        by_cases hdepth : r.callers.length < r'.callers.length ∧
            l.callDepth ≤ r.callers.length + 1
        · rw [if_pos hdepth]
          exact Or.inr ⟨_, _, _, rfl, rfl⟩
        · have hdepth' : ¬(r.callers.length < r'.callers.length ∧
              l'.callDepth ≤ r.callers.length + 1) :=
            fun ⟨hlt, hle⟩ => hdepth ⟨hlt, h.callDepth_le.trans hle⟩
          rw [if_neg hdepth, if_neg hdepth']
          exact Or.inl rfl

theorem go_of_within (h : l.Within l')
    (hr : ∀ fuel o m, go l fuel r = some (o, m) → ¬o.AtLimit) (fuel : Nat) :
    go l' fuel r = go l fuel r := by
  induction fuel generalizing r with
  | zero => rfl
  | succ fuel ih =>
    rcases advance_of_within h r with hsame | ⟨cause, active, m, hlimit, hcut⟩
    · rw [go, go, hsame]
      cases hr' : r.advance l with
      | ended o m => rfl
      | running r' =>
        exact ih fun fuel' o m ho => hr (fuel' + 1) o m (by rw [go_of_running hr', ho])
    · exact absurd hlimit (hr 1 _ m (go_of_ended hcut 0))

end Run

theorem Machine.callResult_of_within {m : Machine} {l' : Limits} (h : m.limits.Within l')
    {f : Value} {args : List Value} {kwargs : Keywords}
    (hm : ∀ fuel o mem, m.callResult fuel f args kwargs = some (o, mem) → ¬o.AtLimit)
    (fuel : Nat) :
    ({ m with limits := l' } : Machine).callResult fuel f args kwargs =
      m.callResult fuel f args kwargs := by
  cases f with
  | function f =>
    cases hbind : f.bind args kwargs m.memory.store with
    | error stop => rcases stop with failure | cause <;> simp only [callResult, hbind]
    | ok p =>
      obtain ⟨frame, store⟩ := p
      simp only [callResult, hbind] at hm ⊢
      by_cases hdepth : m.limits.callDepth = 0
      · simp only [hdepth, if_true] at hm
        exact absurd rfl (hm 0 _ _ rfl)
      · have hdepth' : l'.callDepth ≠ 0 := by
          have hle : m.limits.callDepth ≤ l'.callDepth := h.callDepth_le
          omega
        simp only [hdepth, hdepth', if_false] at hm ⊢
        exact Run.go_of_within h hm fuel
  | _ => rfl

end Bytewright
