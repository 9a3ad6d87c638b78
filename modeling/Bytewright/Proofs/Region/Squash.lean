import Bytewright.Proofs.Machine.Traceback
import Bytewright.Proofs.Region.Layout
import Bytewright.Proofs.Region.Shield

/-!
# Regions that squash exceptions

The handler of a region drops the traceback and raises the exception anew.  To close the block cuts
the stack down to the level at which it was opened; that the body has left nothing above this level
is what the walk over depths has checked.
-/

namespace Bytewright

open Assemble Generator

/-! ### Raising anew -/

def Run.RaisesAnew (e : Exception) (r : Run) : Prop :=
  ∃ ins m, r.Does ins (.error (.raise e [] false) m)

theorem Run.RaisesAnew.carries {e : Exception} {r : Run} (h : r.RaisesAnew e) :
    r.proceed.Carries e r.traceback := by
  obtain ⟨ins, m, hi, hm⟩ := h
  have hentry : m.frame.entry r.frame.ip = r.frame.entry r.frame.ip := by
    simp only [Frame.entry, (leaves_of_execute hm).sameUnit.code]
  have hproceed : r.proceed =
      unwind e (r.steps + 1) m.memory m.frame r.callers r.frame.ip [] false := by
    simp only [proceed, hi, hm]
  rw [hproceed, traceback, ← hentry]
  exact carries_unwind _ _ _ _ _ _ _ false

/-! ### Instructions of a region -/

structure SquashLaid (c : Code) (start bodyEnd : Nat) : Prop where
  setupExcept : ∃ i, c.code[start]? = some i ∧ i.opcode = .jump .setupExcept ∧
    i.target start = some (bodyEnd + 2)
  popBlock : ∃ i, c.code[bodyEnd]? = some i ∧ i.opcode = .bare .popBlock
  jumpDone : ∃ i, c.code[bodyEnd + 1]? = some i ∧ i.opcode = .jump .jumpForward ∧
    i.target (bodyEnd + 1) = some (bodyEnd + 8)
  rotThree : ∃ i, c.code[bodyEnd + 2]? = some i ∧ i.opcode = .bare .rotThree
  rotTwo : ∃ i, c.code[bodyEnd + 3]? = some i ∧ i.opcode = .bare .rotTwo
  popTop : ∃ i, c.code[bodyEnd + 4]? = some i ∧ i.opcode = .bare .popTop
  raise : c.code[bodyEnd + 5]? = some ⟨.count .raiseVarargs, 2⟩
  done_le : bodyEnd + 8 ≤ c.code.length

namespace SquashLaid

variable {c : Code} {start bodyEnd : Nat} {r : Run} (h : SquashLaid c start bodyEnd)
include h

theorem enter (hunit : r.frame.code = c) (hip : r.frame.ip = start) :
    r.proceed = .running ⟨{ r.frame with
        ip := start + 1
        blocks := ⟨.except, bodyEnd + 2, r.frame.stack.length⟩ :: r.frame.blocks },
      r.callers, r.steps + 1, r.memory⟩ := by
  obtain ⟨i, hi, hop, ht⟩ := h.setupExcept
  subst hunit hip
  have henter : execute i r.frame.ip ⟨r.frame.ahead, r.memory⟩ = .ok .next ⟨{ r.frame.ahead with
      blocks := ⟨.except, bodyEnd + 2, r.frame.stack.length⟩ :: r.frame.blocks }, r.memory⟩ :=
    execute_enter hop ht r.frame.ahead r.memory
  exact Run.proceed_of_next hi henter

theorem leave {b : Block} {blocks : List Block}
    (hunit : r.frame.code = c) (hip : r.frame.ip = bodyEnd) (hblocks : r.frame.blocks = b :: blocks)
    (hlevel : r.frame.stack.length ≤ b.level) : r.Proceeds
      ⟨{ r.frame with ip := bodyEnd + 8, blocks }, r.callers, r.steps + 1 + 1, r.memory⟩ := by
  obtain ⟨i, hi, hop⟩ := h.popBlock
  obtain ⟨j, hj, hjump, ht⟩ := h.jumpDone
  have hle := h.done_le
  subst hunit hip
  let f₁ : Frame := { r.frame with ip := r.frame.ip + 1, blocks }
  have hpop := execute_leave (f := r.frame.ahead) r.frame.ip hop hblocks r.memory
  rw [show r.frame.ahead.stack = r.frame.stack from rfl, truncate_of_le hlevel] at hpop
  have hdone : execute j f₁.ip ⟨f₁.ahead, r.memory⟩ =
      .ok .next ⟨{ r.frame with ip := r.frame.ip + 8, blocks }, r.memory⟩ := by
    have ht' : j.target f₁.ip = some (r.frame.ip + 8) := ht
    simp only [execute, hjump, ht', Exec.onJump, Exec.jumpTo, Exec.frame, Bind.bind, EStateM.bind]
    rw [if_pos (show r.frame.ip + 8 ≤ f₁.ahead.code.code.length from hle)]
    rfl
  exact .head (Run.proceed_of_next hi hpop) (.single (Run.proceed_of_next (f := f₁) hj hdone))

theorem handle {e : Exception} {tb : Value} {stack : List Value}
    (hunit : r.frame.code = c) (hip : r.frame.ip = bodyEnd + 2)
    (hstack : r.frame.stack = .exceptionType e.kind :: .exception e :: tb :: stack) :
    let raising : Run := ⟨{ r.frame with
        ip := bodyEnd + 5
        stack := .exception e :: .exceptionType e.kind :: stack },
      r.callers, r.steps + 1 + 1 + 1, r.memory⟩
    r.Proceeds raising ∧ raising.RaisesAnew e := by
  obtain ⟨i, hi, hthree⟩ := h.rotThree
  obtain ⟨j, hj, htwo⟩ := h.rotTwo
  obtain ⟨k, hk, hpop⟩ := h.popTop
  have hraise := h.raise
  subst hunit
  let kind : Value := .exceptionType e.kind
  let f₁ : Frame := { r.frame with ip := bodyEnd + 3, stack := .exception e :: tb :: kind :: stack }
  let f₂ : Frame := { r.frame with ip := bodyEnd + 4, stack := tb :: .exception e :: kind :: stack }
  let f₃ : Frame := { r.frame with ip := bodyEnd + 5, stack := .exception e :: kind :: stack }
  have h₁ : execute i r.frame.ip ⟨r.frame.ahead, r.memory⟩ = .ok .next ⟨f₁, r.memory⟩ := by
    simp only [execute, hthree, Exec.onBare, Exec.pop, Bind.bind, EStateM.bind, hstack, hip]
    rfl
  have h₂ : execute j f₁.ip ⟨f₁.ahead, r.memory⟩ = .ok .next ⟨f₂, r.memory⟩ := by
    simp only [execute, htwo]
    rfl
  have h₃ : execute k f₂.ip ⟨f₂.ahead, r.memory⟩ = .ok .next ⟨f₃, r.memory⟩ := by
    simp only [execute, hpop]
    rfl
  have h₄ : execute ⟨.count .raiseVarargs, 2⟩ f₃.ip ⟨f₃.ahead, r.memory⟩ =
      .error (.raise e [] false) ⟨{ f₃.ahead with stack }, r.memory⟩ := by
    show (Exec.orFailWith (r.memory.store.normalize kind (.exception e)) >>=
      fun e => (Exec.raise e : Exec Signal)) ⟨{ f₃.ahead with stack }, r.memory⟩ = _
    rw [Run.normalize_kind]
    rfl
  refine ⟨.head (Run.proceed_of_next (hip ▸ hi) h₁) ?_, _, _, hraise, h₄⟩
  exact .head (Run.proceed_of_next (f := f₁) hj h₂) (.single (Run.proceed_of_next (f := f₂) hk h₃))

variable {level : Nat} {outer : List Block} {callers : List Frame} {P W H : Frame → Prop}
  {last w : Run}

theorem exists_inside {seen : Depth.Record} {deepest : Int}
    {s : Depth.State} (hs : Depth.Survey c.code seen deepest []) (hr : Depth.Recorded seen start s)
    (hunit : r.frame.code = c) (hip : r.frame.ip = start) :
    ∃ P W H, Frame.Inside r.frame.blocks P W H ∧ P { r.frame with ip := start + 1 } ∧
      (∀ f, P f → f.code = c) ∧ (∀ f, H f → f.code = c) ∧
      ∀ f, P f → f.blocks = r.frame.blocks → f.ip = bodyEnd →
        f.stack.length ≤ r.frame.stack.length := by
  obtain ⟨i, hi, hop, -⟩ := h.setupExcept
  obtain ⟨j, hj, hpop⟩ := h.popBlock
  subst hip
  have hlags : r.frame.ahead.Lags c.code seen (s.depth - r.frame.stack.length)
      (s.depth :: s.blocks) r.frame.blocks := by
    refine Frame.ahead_lags .except hs ?_ hr hi hop
    rw [hunit]
  refine ⟨_, _, _, (Frame.inside_lags hs).ofUnit c, ⟨hunit, hlags⟩, fun f hf => hf.1,
    fun f hf => hf.1, fun f hf hblocks hend => ?_⟩
  have hle := hf.2.length_le_of_popBlock hs hblocks (hend ▸ hj) hpop
  omega

theorem exists_shielded (hunit : r.frame.code = c)
    (hip : r.frame.ip = start) (hinside : Frame.Inside r.frame.blocks P W H)
    (hP : P { r.frame with ip := start + 1 })
    (hbalanced : Run.Balanced r.callers r.frame.blocks
      { r with frame := { r.frame with ip := start + 1 } } last) :
    ∃ w, r.Proceeds w ∧ Run.Shielded ⟨.except, bodyEnd + 2, r.frame.stack.length⟩ r.frame.blocks
      r.callers P W last w := by
  have hshielded : Run.Shielded ⟨.except, bodyEnd + 2, r.frame.stack.length⟩ r.frame.blocks
      r.callers P W { r with frame := { r.frame with ip := start + 1 } } ⟨{ r.frame with
        ip := start + 1
        blocks := ⟨.except, bodyEnd + 2, r.frame.stack.length⟩ :: r.frame.blocks },
      r.callers, r.steps + 1, r.memory⟩ :=
    .active rfl rfl ⟨[], rfl, rfl⟩ rfl hP
  obtain ⟨w, hw, hlast⟩ := hshielded.proceeds hinside hbalanced
  exact ⟨w, .head (h.enter hunit hip) hw, hlast⟩

theorem leave_of_shielded
    (hshielded : Run.Shielded ⟨.except, bodyEnd + 2, level⟩ outer callers P W last w)
    (hcallers : last.callers = callers) (hblocks : last.frame.blocks = outer)
    (hip : last.frame.ip = bodyEnd)
    (hP : P last.frame → last.frame.code = c ∧ last.frame.stack.length ≤ level) :
    ∃ n, w.Proceeds ⟨{ last.frame with ip := bodyEnd + 8 }, callers, n, last.memory⟩ := by
  cases hshielded with
  | active _ hw hframe hmemory hlast =>
    obtain ⟨inner, hinner, hf⟩ := hframe
    obtain rfl : inner = [] := List.append_cancel_right (hinner.symm.trans hblocks)
    obtain ⟨hunit, hlevel⟩ := hP hlast
    obtain ⟨f', _, n, _⟩ := w
    subst hw hmemory hf hblocks
    exact ⟨n + 1 + 1, h.leave hunit hip rfl hlevel⟩
  | waiting hr => exact absurd (hcallers.symm.trans hr) (Run.ne_append_cons _ _ _)

theorem raisesAnew_of_shielded {e : Exception} {f : Frame}
    {memory : Memory} (hinside : Frame.Inside outer P W H)
    (hshielded : Run.Shielded ⟨.except, bodyEnd + 2, level⟩ outer callers P W last w)
    (hH : H f → f.code = c) (hescapes : last.Escapes callers outer e f memory) :
    f.code = c ∧ ∃ n stack traced,
      let raising : Run := ⟨{ f with
          ip := bodyEnd + 5
          stack
          blocks := outer
          handled := some (e, traced) },
        callers, n, { memory with store := (memory.store.newTraceback traced).2 }⟩
      w.Proceeds raising ∧ raising.RaisesAnew e := by
  obtain ⟨hf, n, traced, stack, hcaught⟩ := hshielded.escape hinside rfl hescapes
  let caught : Run := ⟨{ f with
      ip := bodyEnd + 2
      stack := .exceptionType e.kind :: .exception e ::
        (memory.store.newTraceback traced).1 :: stack
      blocks := outer
      handled := some (e, traced) },
    callers, n, { memory with store := (memory.store.newTraceback traced).2 }⟩
  obtain ⟨hproceeds, hraises⟩ := h.handle (r := caught) (hH hf) rfl rfl
  exact ⟨hH hf, _, _, traced, .head hcaught hproceeds, hraises⟩

end SquashLaid

/-! ### Emitted regions -/

section Emitted

variable {g g' : Generator} {body : Emit Unit} {after : Stream} {fileName : String}
  {header : Header} {c : Code}

theorem laid_of_trySquashRaise (hbody : Extends body) (hsquash : trySquashRaise body g = .ok () g')
    (hcode : assemble fileName (g'.ops ++ after) header = .ok c) (hc : c.Addressable) :
    SquashLaid c (size g.ops) (size g'.ops - 8) ∧ 8 ≤ size g'.ops := by
  have hopened : bracket [.jump .setupExcept ⟨g.labels.allocated⟩]
      (squashClosing ⟨g.labels.allocated⟩ ⟨g.labels.allocated + 1⟩) body
      { g with labels := ⟨g.labels.allocated + 2⟩ } = .ok () g' := hsquash
  obtain ⟨⟨⟨i₁, hi₁, hop₁, ht₁⟩, -⟩, ⟨⟨i₂, hi₂, hop₂⟩, ⟨i₃, hi₃, hop₃, ht₃⟩, hhandler,
      ⟨i₄, hi₄, hop₄⟩, ⟨i₅, hi₅, hop₅⟩, ⟨i₆, hi₆, hop₆⟩, ⟨i₇, hi₇, rfl⟩, -, -, hdone, hle⟩,
      hsize⟩ :=
    carries_of_bracket hbody hopened hcode hc (by simp) (by simp [squashClosing])
  rw [hhandler] at ht₁
  rw [hdone] at ht₃
  exact ⟨⟨⟨i₁, hi₁, hop₁, ht₁⟩, ⟨i₂, hi₂, hop₂⟩, ⟨i₃, hi₃, hop₃, ht₃⟩, ⟨i₄, hi₄, hop₄⟩,
    ⟨i₅, hi₅, hop₅⟩, ⟨i₆, hi₆, hop₆⟩, hi₇, hle⟩, hsize⟩

theorem Assembled.exists_survey {ops : Stream} (h : Assembled fileName ops header c) :
    ∃ seen deepest, Depth.survey c.code 0 = .ok (seen, deepest) := by
  obtain ⟨seen, deepest, hsurvey, -⟩ := Depth.checkFrom_eq_ok_iff.1 h.check_eq
  exact ⟨seen, deepest, hsurvey⟩

/-- A region that squashes exceptions, at a place that a path of the unit leads to.  The bare run
starts at the body, without the block of the region, and keeps the blocks that it starts with.

If it comes to the end of the body, with the blocks that it started with, then the run through the
region arrives behind the region with the same frame and memory.  If an exception escapes, raised by
the body or let out of a call, then the run through the region comes to an instruction of the region
that raises this exception anew, and its traceback ends with the line of that instruction, behind
the lines of the frames that waited before.  With limits, the run may be cut off before. -/
theorem trySquashRaise_squashes_and_is_invisible {r : Run} {s : Depth.State} (hbody : Extends body)
    (hsquash : trySquashRaise body g = .ok () g')
    (hcode : assemble fileName (g'.ops ++ after) header = .ok c) (hc : c.Addressable)
    (hunit : r.frame.code = c) (hip : r.frame.ip = size g.ops)
    (hreach : Depth.Reachable c.code 0 (size g.ops, s)) :
    let bare : Run := { r with frame := { r.frame with ip := size g.ops + 1 } }
    (∀ last, bare.Balanced r.callers r.frame.blocks last → last.callers = r.callers →
      last.frame.blocks = r.frame.blocks → last.frame.ip = size g'.ops - 8 →
      ∃ n, let done : Run := ⟨{ last.frame with ip := size g'.ops }, r.callers, n, last.memory⟩
        r.Proceeds done ∧ ∀ limits, r.Arrives limits done) ∧
    ∀ last e f memory, bare.Balanced r.callers r.frame.blocks last →
      last.Escapes r.callers r.frame.blocks e f memory →
      f.code = c ∧ ∃ n stack traced,
        let raising : Run := ⟨{ f with
            ip := size g'.ops - 3
            stack
            blocks := r.frame.blocks
            handled := some (e, traced) },
          r.callers, n, { memory with store := (memory.store.newTraceback traced).2 }⟩
        r.Proceeds raising ∧ (∀ limits, r.Arrives limits raising) ∧ raising.RaisesAnew e ∧
          raising.proceed.Carries e
            (Run.waitingEntries r.callers ++ [r.frame.entry (size g'.ops - 3)]) := by
  intro bare
  obtain ⟨hlaid, hsize⟩ := laid_of_trySquashRaise hbody hsquash hcode hc
  obtain ⟨seen, deepest, hsurvey⟩ := (assemble_eq_ok_iff.1 hcode).exists_survey
  obtain ⟨hs, hstart⟩ := Depth.survey_closed hsurvey
  have hrecorded := hs.recorded_of_reachable hstart hreach
  obtain ⟨P, W, H, hinside, hP, hPunit, hHunit, hheight⟩ :=
    hlaid.exists_inside hs hrecorded hunit hip
  have hend : size g'.ops = size g'.ops - 8 + 8 := by omega
  refine ⟨fun last hbalanced hcallers hblocks hlast => ?_,
    fun last e f memory hbalanced hescapes => ?_⟩
  · obtain ⟨w, hw, hshielded⟩ := hlaid.exists_shielded hunit hip hinside hP hbalanced
    obtain ⟨n, hdone⟩ := hlaid.leave_of_shielded hshielded hcallers hblocks hlast fun hf =>
      ⟨hPunit _ hf, hheight _ hf hblocks hlast⟩
    rw [← hend] at hdone
    have hproceeds := Relation.ReflTransGen.trans hw hdone
    exact ⟨n, hproceeds, Run.Proceeds.arrives hproceeds⟩
  · obtain ⟨w, hw, hshielded⟩ := hlaid.exists_shielded hunit hip hinside hP hbalanced
    obtain ⟨hf, n, stack, traced, hraising, hraises⟩ :=
      hlaid.raisesAnew_of_shielded hinside hshielded (hHunit f) hescapes
    have hplace : size g'.ops - 8 + 5 = size g'.ops - 3 := by omega
    rw [hplace] at hraising hraises
    have hproceeds := Relation.ReflTransGen.trans hw hraising
    refine ⟨hf, n, stack, traced, hproceeds, Run.Proceeds.arrives hproceeds, hraises, ?_⟩
    have hentry : r.frame.entry (size g'.ops - 3) = f.entry (size g'.ops - 3) := by
      simp only [Frame.entry, hunit, hf]
    rw [hentry]
    exact hraises.carries

end Emitted

def squashedCall : Emit Unit :=
  trySquashRaise (extend [.name .loadGlobal "troubled", plainCall 0, .bare .popTop])

def squashedCallUnit : Code where
  stackSize := 3
  flags := ⟨0x41⟩
  code := [⟨.jump .setupExcept, 5⟩, ⟨.name .loadGlobal, 0⟩, ⟨.call .callFunction, 0⟩,
    ⟨.bare .popTop, 0⟩, ⟨.bare .popBlock, 0⟩, ⟨.jump .jumpForward, 6⟩, ⟨.bare .rotThree, 0⟩,
    ⟨.bare .rotTwo, 0⟩, ⟨.bare .popTop, 0⟩, ⟨.count .raiseVarargs, 2⟩, ⟨.jump .jumpForward, 1⟩,
    ⟨.bare .endFinally, 0⟩, ⟨.loadConst, 0⟩, ⟨.bare .returnValue, 0⟩]
  names := ["troubled"]
  fileName := "regions"
  name := "squash"
  firstLine := 30
  consts := [.none]

def squashedCallFrame (ip : Nat) (stack : List Value) : Frame :=
  ⟨squashedCallUnit, [], ⟨0⟩, ⟨0⟩, [], stack, [], none, ip⟩

def squashedCallWaiting : Frame := Machine.frameOf Machine.relaying 3 [] [] none

def untroubledMemory (nextId : Nat) : Memory :=
  { store := { scopes := #[[("troubled", .exceptionType "Trouble")]], nextId } }

/-- If the call makes an exception, the run arrives behind the region without it.  If the call
raises one, the region raises it anew, and the frame that was called is not in the traceback. -/
theorem squashedCall_squashes :
    ∃ g', squashedCall { fileName := "regions" } = .ok () g' ∧
      assemble "regions" (g'.ops ++ [.const .none, .bare .returnValue])
        { name := "squash", firstLine := 30 } = .ok squashedCallUnit ∧
      (∃ n, Run.Proceeds ⟨squashedCallFrame 0 [], [squashedCallWaiting], 0, untroubledMemory 0⟩
        ⟨squashedCallFrame 12 [], [squashedCallWaiting], n, untroubledMemory 1⟩) ∧
      ∃ raising,
        Run.Proceeds ⟨squashedCallFrame 0 [], [squashedCallWaiting], 0, Machine.troubledMemory 0⟩
          raising ∧ raising.RaisesAnew ⟨0, "Trouble", []⟩ ∧
        raising.proceed.Carries ⟨0, "Trouble", []⟩
          [⟨"<raw>", "relaying", 10⟩, ⟨"regions", "squash", 30⟩] := by
  let start (memory : Memory) : Run :=
    ⟨squashedCallFrame 0 [], [squashedCallWaiting], 0, memory⟩
  have hbody : Extends (extend [.name .loadGlobal "troubled", plainCall 0, .bare .popTop]) := by
    rintro g _ ⟨⟩
    exact List.prefix_append _ _
  have hcode : assemble "regions" (Piece.squashed 0 [.name .loadGlobal "troubled", plainCall 0,
      .bare .popTop] ++ [.const .none, .bare .returnValue])
      { name := "squash", firstLine := 30 } = .ok squashedCallUnit := by cbv
  have haddressable : squashedCallUnit.Addressable :=
    ⟨by decide, by decide, fun pool => by cases pool <;> decide⟩
  have hregion (memory : Memory) := trySquashRaise_squashes_and_is_invisible
    (g := { fileName := "regions" }) (r := start memory) hbody rfl hcode haddressable rfl rfl .refl
  have hactive (f : Frame) (n : Nat) (memory : Memory) :
      Run.Within [squashedCallWaiting] [] ⟨f, [squashedCallWaiting], n, memory⟩ :=
    ⟨[], f, rfl, List.nil_suffix⟩
  have hcalled (f f' : Frame) (n : Nat) (memory : Memory) :
      Run.Within [squashedCallWaiting] [] ⟨f, [f', squashedCallWaiting], n, memory⟩ :=
    ⟨[f], f', rfl, List.nil_suffix⟩
  refine ⟨_, rfl, hcode, ?_, ?_⟩
  · let r₁ : Run := ⟨squashedCallFrame 2 [.exceptionType "Trouble"], [squashedCallWaiting], 1,
      untroubledMemory 0⟩
    let r₂ : Run := ⟨squashedCallFrame 3 [.exception ⟨0, "Trouble", []⟩], [squashedCallWaiting], 2,
      untroubledMemory 1⟩
    let last : Run := ⟨squashedCallFrame 4 [], [squashedCallWaiting], 3, untroubledMemory 1⟩
    obtain ⟨n, hdone, -⟩ := (hregion (untroubledMemory 0)).1 last
      (.head (b := r₁) ⟨rfl, hactive _ _ _⟩ (.head (b := r₂) ⟨rfl, hactive _ _ _⟩
        (.single ⟨rfl, hactive _ _ _⟩))) rfl rfl rfl
    exact ⟨n, hdone⟩
  · let waiting := squashedCallFrame 3 []
    let line : TraceEntry := ⟨"<raw>", "troubled", 20⟩
    let r₁ : Run := ⟨squashedCallFrame 2 [.function Machine.troubled], [squashedCallWaiting], 1,
      Machine.troubledMemory 0⟩
    let r₂ : Run := ⟨Machine.frameOf Machine.troubled 0 [] [] none, [waiting, squashedCallWaiting],
      2, Machine.troubledMemory 0⟩
    let r₃ : Run := ⟨Machine.frameOf Machine.troubled 1 [] [⟨.except, 3, 0⟩] none,
      [waiting, squashedCallWaiting], 3, Machine.troubledMemory 0⟩
    let r₄ : Run := ⟨Machine.frameOf Machine.troubled 2 [.exceptionType "Trouble"]
      [⟨.except, 3, 0⟩] none, [waiting, squashedCallWaiting], 4, Machine.troubledMemory 0⟩
    let last : Run := ⟨Machine.frameOf Machine.troubled 3 [.exceptionType "Trouble",
      .exception ⟨0, "Trouble", []⟩, .traceback 1 [line]] [] (some (⟨0, "Trouble", []⟩, [line])),
      [waiting, squashedCallWaiting], 5, Machine.troubledMemory 2⟩
    have hescapes : last.Escapes [squashedCallWaiting] [] ⟨0, "Trouble", []⟩ waiting
        (Machine.troubledMemory 2) := by
      have hended : Run.proceed ⟨last.frame, [], 0, last.memory⟩ =
          .ended (.raised ⟨0, "Trouble", []⟩ [line]) (Machine.troubledMemory 2) := rfl
      have hcallers : last.callers = [] ++ waiting :: [squashedCallWaiting] := rfl
      exact ⟨.called hcallers hended, [], rfl, List.forall_mem_nil _⟩
    obtain ⟨-, n, stack, traced, hproceeds, -, hraises, hcarries⟩ :=
      (hregion (Machine.troubledMemory 0)).2 last _ _ _
        (.head (b := r₁) ⟨rfl, hactive _ _ _⟩ (.head (b := r₂) ⟨rfl, hcalled _ _ _ _⟩
          (.head (b := r₃) ⟨rfl, hcalled _ _ _ _⟩ (.head (b := r₄) ⟨rfl, hcalled _ _ _ _⟩
            (.single ⟨rfl, hcalled _ _ _ _⟩))))) hescapes
    exact ⟨_, hproceeds, hraises, hcarries⟩

end Bytewright
