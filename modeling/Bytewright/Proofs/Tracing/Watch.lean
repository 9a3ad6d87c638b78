import Bytewright.Proofs.Link.Closed
import Bytewright.Proofs.Machine.Follow
import Bytewright.Proofs.Tracing.Report

/-!
# Watched runs

A run is watched when the report of each instruction of its outermost frame is written into the log
before the instruction is executed.
-/

namespace Bytewright

def Frame.report? (f : Frame) : Option (HookCall × List Operand) :=
  (f.code.code[f.ip]?).bind fun i => i.report? f.code f.stack

def Run.watched (h : Hook) (r : Run) : Run :=
  match r.callers, r.frame.report? with
  | [], some (call, operands) => { r with memory := r.memory.reported h call operands }
  | _, _ => r

def Run.watch (h : Hook) : Nat → Run → Option (Outcome × Memory)
  | 0, _ => none
  | fuel + 1, r =>
    match (r.watched h).proceed with
    | .running r => watch h fuel r
    | .ended o m => some (o, m)

def Machine.watchResult (fuel : Nat) (m : Machine) (h : Hook) (k : Function) (args : List Value)
    (kwargs : Keywords) : Option (Outcome × Memory) :=
  match k.bind args kwargs m.memory.store with
  | .ok (frame, store) => Run.watch h fuel { frame, memory := { m.memory with store } }
  | .error _ => m.callResult fuel (.function k) args kwargs

theorem Run.watched_eq (h : Hook) (r : Run) :
    ∃ m, m.store = r.memory.store ∧ r.watched h = { r with memory := m } := by
  unfold Run.watched
  split
  · exact ⟨_, Memory.store_reported .., rfl⟩
  · exact ⟨r.memory, rfl, rfl⟩

theorem Run.watched_of_callers {r : Run} (h : Hook) (hcallers : r.callers ≠ []) :
    r.watched h = r := by
  unfold Run.watched
  split
  · next hnil _ => exact absurd hnil hcallers
  · rfl

/-! ### Runs that differ in their logs -/

abbrev Sharing.unlogged : Sharing := .whole (fun _ => True) True False

section Unlogged

variable {hidden : ScopeRef → Bindings} {ids : Pairing} {r w : Run}

theorem Run.Linked.lockstep {K : Sharing} (h : r.Linked (.lockstep K) hidden ids w) :
    r.frame.Linked K ids w.frame ∧ FramesLinked (.lockstep K) ids r.callers w.callers := by
  have hall := h.frames
  generalize w.callers = gs at hall ⊢
  generalize r.callers = fs at hall ⊢
  cases hall with
  | bottom h => exact ⟨h, .nil⟩
  | cons h hs => exact ⟨h, hs⟩

theorem Run.Linked.watched (h : r.Linked (.lockstep .unlogged) hidden ids w) (tracer : Hook) :
    Progress.Linked (.lockstep .unlogged) hidden ids r.proceed (w.watched tracer).proceed := by
  obtain ⟨m, hm, hw⟩ := w.watched_eq tracer
  have hlinked : r.Linked (.lockstep .unlogged) hidden ids (w.watched tracer) := by
    rw [hw]
    exact ⟨h.frames, ⟨hm ▸ h.memory.store, fun hlogs => hlogs.elim⟩, h.steps_eq⟩
  exact hlinked.proceed hlinked.lockstep.1 hlinked.lockstep.2 fun _ _ _ => trivial

end Unlogged

/-! ### The outermost frame -/

namespace Run

def baseOf (f : Frame) (callers : List Frame) : Code := (callers.getLastD f).code

def base (r : Run) : Code := baseOf r.frame r.callers

theorem baseOf_cons (f c : Frame) (callers : List Frame) :
    baseOf f (c :: callers) = baseOf c callers := by
  rw [baseOf, baseOf, List.getLastD_cons]

theorem baseOf_congr {f g : Frame} (h : g.code = f.code) (callers : List Frame) :
    baseOf g callers = baseOf f callers := by
  cases callers with
  | nil => exact h
  | cons c callers => rw [baseOf_cons, baseOf_cons]

theorem baseOf_append {f g : Frame} {callers passed rest : List Frame}
    (h : f :: callers = passed ++ g :: rest) : baseOf f callers = baseOf g rest := by
  induction passed generalizing f callers with
  | nil =>
    cases h
    rfl
  | cons p passed ih =>
    cases callers with
    | nil => simp at h
    | cons c callers =>
      rw [baseOf_cons]
      exact ih (List.cons.inj h).2

theorem base_of_unwind {e : Exception} {steps : Nat} {m : Memory} {f : Frame} {callers : List Frame}
    {index : Nat} {entries : List TraceEntry} {again : Bool} {r : Run}
    (h : unwind e steps m f callers index entries again = .running r) :
    r.base = baseOf f callers := by
  obtain ⟨-, passed, g, traced, hcallers, hhandler⟩ := exists_handler_of_unwind h
  rw [base, baseOf_congr (code_of_enterHandler? hhandler), baseOf_append hcallers]

theorem base_of_proceed {r r' : Run} (h : r.proceed = .running r') : r'.base = r.base := by
  obtain ⟨ins, -, hcontinues⟩ := exists_continues h
  cases hcontinues with
  | next hm => exact baseOf_congr (f := r.frame) (sameUnit_of_execute hm).1.code _
  | @ret v _ c callers _ hc =>
    rw [base, base, hc, baseOf_cons]
    exact baseOf_congr (f := c) (g := c.push v) rfl callers
  | call hm =>
    rw [base, base, baseOf_cons]
    exact baseOf_congr (f := r.frame) (sameUnit_of_execute hm).1.code _
  | raise hm hr =>
    rw [base_of_unwind hr]
    exact baseOf_congr (f := r.frame) (leaves_of_execute hm).sameUnit.code r.callers

theorem base_of_proceeds {r r' : Run} (h : r.Proceeds r') : r'.base = r.base := by
  induction h with
  | refl => rfl
  | tail _ hnext ih => exact (base_of_proceed hnext).trans ih

end Run

end Bytewright
