import Bytewright.Proofs.Machine.Keep
import Bytewright.Proofs.Machine.Unlimited

/-!
# Frames of one code unit in a run

To follow the frames of one unit through a run it is enough to know what each of their instructions
does.
-/

namespace Bytewright

open List

/-- Instructions lead from `P`, which is for frames that execute, to `P` or to `W`, for those that
wait. -/
structure Frame.Carries (code : List Instruction) (P W : Frame → Prop) : Prop where
  fresh : ∀ {g : Function} {args kwargs s f s'}, g.bind args kwargs s = .ok (f, s') →
    f.code.code = code → P f
  next : ∀ {f : Frame} {ins memory m}, f.code.code = code → P f → code[f.ip]? = some ins →
    execute ins f.ip ⟨f.ahead, memory⟩ = .ok .next m → P m.frame
  call : ∀ {f : Frame} {ins callee memory m}, f.code.code = code → P f → code[f.ip]? = some ins →
    execute ins f.ip ⟨f.ahead, memory⟩ = .ok (.call callee) m → W m.frame
  ret : ∀ {c : Frame}, W c → ∀ v, P (c.push v)

/-- An exception leads to `P` again, in the frame that handles it. -/
structure Frame.Handles (code : List Instruction) (P W H : Frame → Prop) : Prop where
  raise : ∀ {f : Frame} {ins memory e entries again m}, f.code.code = code → P f →
    code[f.ip]? = some ins →
    execute ins f.ip ⟨f.ahead, memory⟩ = .error (.raise e entries again) m → H m.frame
  wait : ∀ {c : Frame}, W c → H c
  handle : ∀ {g h : Frame} {e entries traceback}, g.code.code = code → H g →
    g.enterHandler? e entries traceback = some h → P h

namespace Run

variable {code : List Instruction} {P W H : Frame → Prop} {limits : Limits} {r r' : Run}
  {e : Exception} {entries : List TraceEntry}

/-- Throughout the run, `P` holds of the frame that executes and `W` of those that wait. -/
structure Holds (code : List Instruction) (P W : Frame → Prop) (r : Run) : Prop where
  frame : r.frame.code.code = code → P r.frame
  callers : ∀ c ∈ r.callers, c.code.code = code → W c

/-- The next instruction raises an exception. -/
def Raises (r : Run) : Prop :=
  ∃ ins e entries again m, r.Does ins (.error (.raise e entries again) m)

theorem code_of_enterHandler? {g h : Frame} {traceback : Value}
    (hh : g.enterHandler? e entries traceback = some h) : h.code = g.code := by
  unfold Frame.enterHandler? at hh
  split at hh
  · cases hh
  · cases hh
    rfl

theorem holds_of_unwind (hH : Frame.Handles code P W H) {steps : Nat} {m : Memory} {f : Frame}
    {callers : List Frame} {index : Nat} {again : Bool} (hf : f.code.code = code → H f)
    (hc : ∀ c ∈ callers, c.code.code = code → W c)
    (hr : unwind e steps m f callers index entries again = .running r) : r.Holds code P W := by
  obtain ⟨-, passed, g, traced, hcallers, hhandler⟩ := exists_handler_of_unwind hr
  have hg : g.code.code = code → H g := by
    have hmem : g ∈ f :: callers := by simp [hcallers]
    rcases mem_cons.1 hmem with rfl | hmem
    · exact hf
    · exact fun hcode => hH.wait (hc g hmem hcode)
  refine ⟨fun hcode => ?_, fun c hmem => hc c ?_⟩
  · have hcode' : g.code.code = code := by rw [← hcode, code_of_enterHandler? hhandler]
    exact hH.handle hcode' (hg hcode') hhandler
  · rcases passed with _ | ⟨p, passed⟩
    · cases hcallers
      exact hmem
    · cases hcallers
      exact mem_append_right _ (mem_cons_of_mem _ hmem)

theorem Holds.proceed (hP : Frame.Carries code P W) (hH : r.Raises → Frame.Handles code P W H)
    (h : r.Holds code P W) (hr : r.proceed = .running r') : r'.Holds code P W := by
  obtain ⟨ins, hi, hcontinues⟩ := exists_continues hr
  cases hcontinues with
  | next hm =>
    refine ⟨fun hcode => ?_, h.callers⟩
    have hcode' : r.frame.code.code = code := by rw [← hcode, (sameUnit_of_execute hm).1.code]
    exact hP.next hcode' (h.frame hcode') (hcode' ▸ hi) hm
  | @ret v _ c callers _ hc =>
    have hcallers := hc ▸ h.callers
    exact ⟨fun hcode => hP.ret (hcallers c (mem_cons_self ..) hcode) v,
      fun c' hc' => hcallers c' (mem_cons_of_mem _ hc')⟩
  | call hm =>
    obtain ⟨hm', g, args, kwargs, s, s', hbind⟩ := sameUnit_of_execute hm
    refine ⟨fun hcode => hP.fresh hbind hcode, fun c hc hcode => ?_⟩
    rcases mem_cons.1 hc with rfl | hc
    · have hcode' : r.frame.code.code = code := by rw [← hcode, hm'.code]
      exact hP.call hcode' (h.frame hcode') (hcode' ▸ hi) hm
    · exact h.callers c hc hcode
  | raise hm hr =>
    have hhandles := hH ⟨ins, _, _, _, _, hi, hm⟩
    refine holds_of_unwind hhandles (fun hcode => ?_) h.callers hr
    have hcode' : r.frame.code.code = code := by rw [← hcode, (leaves_of_execute hm).sameUnit.code]
    exact hhandles.raise hcode' (h.frame hcode') (hcode' ▸ hi) hm

theorem Holds.advance (hP : Frame.Carries code P W) (hH : r.Raises → Frame.Handles code P W H)
    (h : r.Holds code P W) (hr : r.advance limits = .running r') : r'.Holds code P W :=
  h.proceed hP hH (proceed_of_advance hr)

end Run

end Bytewright
