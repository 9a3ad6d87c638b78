import Bytewright.Machine.Run
import Bytewright.Proofs.Machine.Execute

/-!
# How a run advances

All that can come of one instruction of a run.
-/

namespace Bytewright

/-- A limit of the machine was reached. -/
def Fatal.ofLimit : Fatal → Bool
  | .callLimit _ _ | .stepLimit _ | .stackLimit _ => true
  | _ => false

/-- The code itself is malformed: its stack, its jumps or its blocks. -/
def Fatal.ofDepth : Fatal → Bool
  | .underflow _ | .fellOff _ | .badJump _ | .badBlock _ | .noBlock _ => true
  | _ => false

variable {cause : Fatal} {fuel : Nat} {g : Function} {args : List Value}
  {kwargs : Keywords} {f : Frame} {s : Store}

theorem Fatal.ofDepth_eq_false_of_ofLimit (h : cause.ofLimit = true) : cause.ofDepth = false := by
  cases cause with
  | callLimit | stepLimit | stackLimit => rfl
  | _ => cases h

namespace Run

variable {limits : Limits} {r : Run}

theorem ofLimit_of_passedLimit? (h : r.passedLimit? limits = some cause) :
    cause.ofLimit = true := by
  simp only [passedLimit?, Option.or_eq_some_iff] at h
  rcases h with h | ⟨-, h⟩
  · split at h
    · split_ifs at h
      cases h
      rfl
    · cases h
  · split_ifs at h
    cases h
    rfl

theorem go_of_running {r' : Run} (hr : r.advance limits = .running r') :
    go limits (fuel + 1) r = go limits fuel r' := by
  rw [go, hr]

theorem go_of_ended {o : Outcome} {m : Memory} (hr : r.advance limits = .ended o m) (fuel : Nat) :
    go limits (fuel + 1) r = some (o, m) := by
  rw [go, hr]

end Run

theorem Machine.callResult_of_bind {m : Machine} (hdepth : m.limits.callDepth ≠ 0)
    (hbind : g.bind args kwargs m.memory.store = .ok (f, s)) :
    m.callResult fuel (.function g) args kwargs =
      Run.go m.limits fuel { frame := f, memory := { m.memory with store := s } } := by
  simp only [Machine.callResult, hbind, if_neg hdepth]

theorem Machine.callResult_of_other (m : Machine) (fuel : Nat) {f : Value} (args : List Value)
    (kwargs : Keywords) (hf : ∀ g, f ≠ .function g) :
    m.callResult fuel f args kwargs =
      match Memory.callValue m.globals f args kwargs m.memory with
      | .ok v memory => some (.value v, memory)
      | .error failure memory => some (.raised (memory.store.failed failure).1 [],
        { memory with store := (memory.store.failed failure).2 }) := by
  cases f with
  | function g => exact absurd rfl (hf g)
  | _ => rfl

theorem FunctionOf.bind_eq_ok {s' : Store} (h : g.bind args kwargs s = .ok (f, s')) :
    f.code = g.code ∧ f.stack = [] ∧ f.blocks = [] ∧ f.handled = none ∧ f.ip = 0 := by
  simp only [FunctionOf.bind] at h
  split at h
  · cases h
  · split at h
    · next b _ =>
      have hf : f = (g.frame b s).1 := by
        cases h
        rfl
      subst hf
      exact ⟨rfl, rfl, rfl, rfl, rfl⟩
    · cases h

end Bytewright
