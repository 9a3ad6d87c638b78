import Bytewright.Proofs.Depth.Walk
import Bytewright.Proofs.Machine.Follow

/-!
# The checker of depths agrees with the machine

As long as no exception is raised, an instruction of accepted code finds all the values that it
takes, jumps to recorded places and closes blocks that are open.
-/

namespace Bytewright

open Depth (Record Recorded Survey Visited State)
open List

variable {code : List Instruction} {seen : Record} {deepest : Int} {f g : Frame}
  {ins : Instruction} {blocks : List Int} {ip taken : Nat} {cause : Fatal} {memory : Memory}

/-! ### Frames and recorded states -/

namespace Frame

def depths (f : Frame) : State := ⟨f.stack.length, f.blocks.map fun b => (b.level : Int)⟩

/-- Stack and blocks are as the record says for the next instruction. -/
structure Matches (code : List Instruction) (seen : Record) (f : Frame) : Prop where
  code_eq : f.code.code = code
  recorded : Recorded seen f.ip f.depths

variable {kinds : List Kind}

theorem Turns.length_eq (h : f.Turns g ip taken kinds) :
    g.stack.length = kinds.length + (f.stack.length - taken) := by
  obtain ⟨vs, hvs, hs⟩ := h.stack_eq
  rw [hs, length_append, length_drop, hvs.length_eq]

theorem Turns.matches {depth : Int} (h : f.Turns g ip taken kinds) (hcode : f.code.code = code)
    (hr : Recorded seen ip ⟨depth, f.depths.blocks⟩)
    (hd : depth = kinds.length + (f.stack.length - taken : Nat)) : g.Matches code seen := by
  refine ⟨by rw [h.code_eq, hcode], ?_⟩
  have hg : g.depths = ⟨depth, f.depths.blocks⟩ := by
    simp only [depths, h.length_eq, h.blocks_eq, hd, Nat.cast_add]
  rw [h.ip_eq, hg]
  exact hr

end Frame

namespace Depth

variable {op : Opcode} {s : State}

theorem leave_eq_ok_of_movesBlock_eq_false (hblock : op.movesBlock = false)
    (h : leave op s = .ok blocks) : blocks = s.blocks := by
  unfold leave at h
  split at h
  · cases hblock
  · split at h <;> cases h
    rfl
  · cases h
    rfl

theorem enter_of_movesBlock_eq_false (depth : Int) (blocks : List Int)
    (hblock : op.movesBlock = false) : enter op depth blocks = blocks := by
  unfold enter
  split
  · cases hblock
  · cases hblock
  · rfl

theorem jumpState_of_movesBlock_eq_false {op : JumpOp} {arg : UInt32}
    (hblock : (Opcode.jump op).movesBlock = false) :
    jumpState op s ⟨s.depth - ((Opcode.jump op).effect arg).1 + ((Opcode.jump op).effect arg).2,
      s.blocks⟩ = ⟨s.depth - ((Opcode.jump op).effect arg).1, s.blocks⟩ := by
  cases op with
  | setupExcept | setupLoop => cases hblock
  | _ => simp [jumpState, Opcode.effect]

end Depth

theorem length_truncate (level : Nat) (stack : List Value) :
    (truncate level stack).length = min level stack.length := by
  rw [truncate, length_drop]
  omega

theorem Instruction.exists_jump_of_target {index target : Nat}
    (h : ins.target index = some target) :
    ∃ op, ins.opcode = .jump op := by
  unfold Instruction.target at h
  split at h
  · next op hop => exact ⟨op, hop⟩
  · cases h

/-! ### One instruction -/

theorem Frame.Step.matches (h : f.Step ins g) (hcode : f.code.code = code)
    (hv : Visited code seen f.ip f.depths ins blocks) : g.Matches code seen := by
  have hpops := hv.pops_le
  simp only [Frame.depths] at hpops
  cases h with
  | fall hflow hblock h =>
    have hnext := hv.next hflow
    rw [Depth.enter_of_movesBlock_eq_false _ _ hblock,
      Depth.leave_eq_ok_of_movesBlock_eq_false hblock hv.leave_eq] at hnext
    refine h.matches hcode hnext ?_
    rw [length_leaves]
    simp only [Frame.depths]
    omega
  | jump hblock ht hle h =>
    obtain ⟨op, hop⟩ := Instruction.exists_jump_of_target ht
    have hjump := hv.jump hop ht
    rw [Depth.leave_eq_ok_of_movesBlock_eq_false hblock hv.leave_eq, hop,
      Depth.jumpState_of_movesBlock_eq_false (hop ▸ hblock), ← hop] at hjump
    refine h.matches hcode hjump ?_
    simp only [Frame.depths, length_nil]
    omega
  | @enter kind target hop ht h =>
    subst h
    have hflow : ins.opcode.endsFlow = false := by
      rw [hop]
      cases kind <;> rfl
    have hnext := hv.next hflow
    have hleave := hv.leave_eq
    refine ⟨hcode, ?_⟩
    rw [hop] at hnext hleave
    cases kind with
    | loop | except =>
      cases hleave
      simpa [Opcode.effect, Depth.enter, Frame.depths] using hnext
  | @leave b outer hop hb h =>
    subst h
    have hnext := hv.next (by rw [hop]; rfl)
    have hleave := hv.leave_eq
    refine ⟨hcode, ?_⟩
    rw [hop] at hnext hleave
    simp only [Depth.leave, Frame.depths, hb, map_cons] at hleave
    split_ifs at hleave with hlevel
    cases hleave
    have htop : truncate b.level f.stack = f.stack := by
      rw [truncate, Nat.sub_eq_zero_of_le (by omega), drop_zero]
    simpa [Opcode.effect, Depth.enter, Frame.depths, htop] using hnext

theorem Frame.Breakdown.ofDepth_eq_false (h : f.Breakdown ins cause)
    (hs : Survey code seen deepest []) (hcode : f.code.code = code)
    (hv : Visited code seen f.ip f.depths ins blocks) : cause.ofDepth = false := by
  cases cause with
  | underflow | fellOff | badBlock => exact h.elim
  | noBlock =>
    obtain ⟨hop, hb⟩ := h
    have hleave := hv.leave_eq
    simp only [hop, Depth.leave, Frame.depths, hb, map_nil] at hleave
    cases hleave
  | badJump =>
    obtain ⟨target, ht, hlt⟩ := h
    obtain ⟨op, hop⟩ := Instruction.exists_jump_of_target ht
    have hle := hs.lt_length (hv.jump hop ht)
    rw [hcode] at hlt
    omega
  | _ => rfl

def Frame.Resumes (code : List Instruction) (seen : Record) (f : Frame) : Signal → Prop
  | .next => f.Matches code seen
  | .ret _ => True
  | .call _ => ∀ v, (f.push v).Matches code seen

theorem Frame.Turns.push (h : f.Turns g ip taken []) (v : Value) :
    f.Turns (g.push v) ip taken [.any] := by
  obtain ⟨vs, hvs, hstack⟩ := h.stack_eq
  cases hvs
  exact ⟨h.code_eq, h.ip_eq, h.blocks_eq, [v], .cons trivial .nil, congrArg (v :: ·) hstack⟩

theorem Frame.Turns.push_matches {op : CallOp} (hop : ins.opcode = .call op)
    (h : f.Turns g (f.ip + 1) (ins.opcode.effect ins.arg).1 []) (hcode : f.code.code = code)
    (hv : Visited code seen f.ip f.depths ins blocks) (v : Value) :
    (g.push v).Matches code seen := by
  have hblock : ins.opcode.movesBlock = false := by rw [hop]; rfl
  have hnext := hv.next (by rw [hop]; rfl)
  have hpops := hv.pops_le
  have heffect : (ins.opcode.effect ins.arg).2 = 1 := by rw [hop, Exec.effect_call]
  rw [Depth.enter_of_movesBlock_eq_false _ _ hblock,
    Depth.leave_eq_ok_of_movesBlock_eq_false hblock hv.leave_eq] at hnext
  refine (h.push v).matches hcode hnext ?_
  simp only [Frame.depths, heffect, length_singleton] at hpops ⊢
  omega

section

variable (hs : Survey code seen deepest [])
include hs

section

variable (h : f.Matches code seen)
include h

theorem Frame.Matches.visited (hi : code[f.ip]? = some ins) :
    ∃ blocks, Visited code seen f.ip f.depths ins blocks ∧ ∀ memory,
      Exec.Ends (execute ins f.ip) ⟨f.ahead, memory⟩ (fun signal m => f.Answers ins signal m.frame)
        (fun stop m => f.Stops ins stop m.frame) := by
  obtain ⟨ins', blocks, hv⟩ := hs.visited h.recorded
  obtain rfl : ins' = ins := Option.some.inj (hv.get_eq.symm.trans hi)
  have hpops : (ins'.opcode.effect ins'.arg).1 ≤ f.stack.length := Int.ofNat_le.1 hv.pops_le
  exact ⟨blocks, hv, fun memory => Bytewright.execute_ends ins' f memory hpops⟩

theorem Frame.Matches.exists_ins : ∃ ins, code[f.ip]? = some ins :=
  ⟨_, getElem?_eq_getElem (hs.lt_length h.recorded)⟩

theorem Frame.Matches.execute_ends : ∃ ins, code[f.ip]? = some ins ∧ ∀ memory,
      Exec.Ends (execute ins f.ip) ⟨f.ahead, memory⟩
        (fun signal m => m.frame.Resumes code seen signal)
        (fun stop _ => ∀ cause, stop = .fatal cause → cause.ofDepth = false) := by
  obtain ⟨ins, hi⟩ := h.exists_ins hs
  obtain ⟨blocks, hv, hends⟩ := h.visited hs hi
  refine ⟨ins, hi, fun memory => (hends memory).mono (fun signal m hm => ?_) (fun stop m hm => ?_)⟩
  · cases signal with
    | next => exact Frame.Step.matches hm h.code_eq hv
    | ret v => trivial
    | call callee =>
      obtain ⟨⟨op, hop⟩, hturns, -⟩ := hm
      exact hturns.push_matches hop h.code_eq hv
  · rintro cause rfl
    exact Frame.Breakdown.ofDepth_eq_false hm hs h.code_eq hv

theorem Frame.Matches.resumes (hi : code[f.ip]? = some ins)
    {signal : Signal} {m : Moment} (hm : execute ins f.ip ⟨f.ahead, memory⟩ = .ok signal m) :
    m.frame.Resumes code seen signal := by
  obtain ⟨ins', hi', hends⟩ := h.execute_ends hs
  rw [hi'] at hi
  cases hi
  exact (Exec.ends_iff.1 (hends memory)).1 _ _ hm

theorem Frame.Matches.length_le : (f.stack.length : Int) ≤ deepest :=
  hs.depth_le h.recorded

end

end

theorem FunctionOf.bind_matches {h : Function} {args : List Value} {kwargs : Keywords}
    {s s' : Store} (hstart : Recorded seen 0 ⟨0, []⟩) (hbind : h.bind args kwargs s = .ok (f, s'))
    (hcode : f.code.code = code) : f.Matches code seen := by
  obtain ⟨-, hstack, hblocks, -, hip⟩ := FunctionOf.bind_eq_ok hbind
  refine ⟨hcode, ?_⟩
  rw [hip, Frame.depths, hstack, hblocks]
  exact hstart

theorem Frame.carries_matches (hs : Survey code seen deepest [])
    (hstart : Recorded seen 0 ⟨0, []⟩) :
    Frame.Carries code (Frame.Matches code seen) fun c => ∀ v, (c.push v).Matches code seen where
  fresh hbind hcode := FunctionOf.bind_matches hstart hbind hcode
  next _ h hi hm := h.resumes hs hi hm
  call _ h hi hm := h.resumes hs hi hm
  ret h := h

/-! ### Runs -/

namespace Run

/-- All frames of the code match the record, those that wait when they get a value. -/
abbrev Agrees (code : List Instruction) (seen : Record) : Run → Prop :=
  Holds code (Frame.Matches code seen) fun c => ∀ v, (c.push v).Matches code seen

/-- One instruction that raises nothing. -/
def CalmStep (limits : Limits) (r r' : Run) : Prop := ¬r.Raises ∧ r.advance limits = .running r'

variable {limits : Limits} {r r' : Run}

theorem Agrees.of_calm (hs : Survey code seen deepest []) (hstart : Recorded seen 0 ⟨0, []⟩)
    (h : r.Agrees code seen) (hcalm : Relation.ReflTransGen (CalmStep limits) r r') :
    r'.Agrees code seen := by
  induction hcalm with
  | refl => exact h
  | tail _ hstep ih =>
    exact ih.advance (H := fun _ => True) (Frame.carries_matches hs hstart)
      (fun hraises => (hstep.1 hraises).elim) hstep.2

theorem unwind_ne_fatal (e : Exception) (steps : Nat) (m : Memory) (f : Frame)
    (callers : List Frame) (index : Nat) (entries : List TraceEntry) (again : Bool) (cause : Fatal)
    (active : List String) (m' : Memory) :
    unwind e steps m f callers index entries again ≠ .ended (.fatal cause active) m' := by
  induction callers generalizing f index entries again with
  | nil =>
    unfold unwind
    dsimp only
    split <;> simp
  | cons c callers ih =>
    unfold unwind
    dsimp only
    split
    · simp
    · exact ih c _ _ _

theorem ofDepth_eq_false_of_matches (hs : Survey code seen deepest [])
    (h : r.frame.Matches code seen) {active : List String}
    (hended : r.advance limits = .ended (.fatal cause active) memory) : cause.ofDepth = false := by
  have hcode := h.code_eq
  rcases advance_eq_proceed limits r with hproceed | ⟨cause', active', memory', hlimit, hcut⟩
  swap
  · rw [hended] at hcut
    cases hcut
    exact Fatal.ofDepth_eq_false_of_ofLimit hlimit
  rw [hproceed] at hended
  revert hended
  refine proceed_cases
    (motive := fun p => p = .ended (.fatal cause active) memory → cause.ofDepth = false) r
    (fun hoff _ => ?_) (fun _ _ _ hr => nomatch hr) (fun ins v m _ hr => ?_)
    (fun _ _ _ _ hr => nomatch hr) (fun ins e entries again m _ hr => ?_)
    (fun ins cause' m hdoes hr => ?_) fun _ _ _ hr => nomatch hr
  · have hlt := hs.lt_length h.recorded
    rw [hcode, getElem?_eq_none_iff] at hoff
    omega
  · rw [leave] at hr
    split at hr <;> cases hr
  · exact (unwind_ne_fatal _ _ _ _ _ _ _ _ _ _ _ hr).elim
  · cases hr
    obtain ⟨hi, hm⟩ := hdoes
    obtain ⟨ins', hi', hends⟩ := h.execute_ends hs
    rw [hcode, hi'] at hi
    cases hi
    exact (Exec.ends_iff.1 (hends r.memory)).2 _ _ hm cause rfl

end Run

/-- In a run of accepted code every frame is in the state that the checker has recorded, as long as
no exception is raised.  A fresh frame is; an instruction leads from recorded states to recorded
states, a call once a value is returned; the stack is never deeper than the checker says; and no
run ends for want of a value, a block or an instruction. -/
theorem check_ok_runs_agree {code : List Instruction} {n : UInt32}
    (hcheck : Depth.check code = .ok n) :
    ∃ seen deepest, Depth.survey code 0 = .ok (seen, deepest) ∧
      (∀ (h : Function) args kwargs s f s', h.code.code = code →
        h.bind args kwargs s = .ok (f, s') → f.Matches code seen) ∧
      (∀ f : Frame, f.Matches code seen → f.stack.length ≤ n.toNat ∧
        ∃ ins, code[f.ip]? = some ins ∧ ∀ memory,
          Exec.Ends (execute ins f.ip) ⟨{ f with ip := f.ip + 1 }, memory⟩
            (fun signal m => m.frame.Resumes code seen signal)
            (fun stop _ => ∀ cause, stop = .fatal cause → cause.ofDepth = false)) ∧
      (∀ (h : Function) args kwargs s f s' limits memory r, h.bind args kwargs s = .ok (f, s') →
        Relation.ReflTransGen (Run.CalmStep limits) { frame := f, memory } r →
        r.Agrees code seen ∧ (r.frame.code.code = code → ∀ cause active memory,
          r.advance limits = .ended (.fatal cause active) memory → cause.ofDepth = false)) := by
  obtain ⟨seen, deepest, hsurvey, hlt, rfl⟩ := Depth.checkFrom_eq_ok_iff.1 hcheck
  obtain ⟨hs, hstart⟩ := Depth.survey_closed hsurvey
  refine ⟨seen, deepest, hsurvey, fun h args kwargs s f s' hcode hbind => ?_, fun f hf => ⟨?_, ?_⟩,
    fun h args kwargs s f s' limits memory r hbind hcalm => ?_⟩
  · exact FunctionOf.bind_matches hstart hbind (by rw [(FunctionOf.bind_eq_ok hbind).1, hcode])
  · have hle := hf.length_le hs
    rw [Depth.toNat_ofNat_deepest hlt]
    omega
  · exact hf.execute_ends hs
  · have hfresh : Run.Agrees code seen { frame := f, memory } :=
      ⟨fun hcode => FunctionOf.bind_matches hstart hbind hcode, by simp⟩
    have hr := hfresh.of_calm hs hstart hcalm
    exact ⟨hr, fun hcode cause active memory hended =>
      Run.ofDepth_eq_false_of_matches hs (hr.frame hcode) hended⟩

def drainLoop : List Instruction :=
  [⟨.loadConst, 0⟩, ⟨.bare .getIter, 0⟩, ⟨.jump .forIter, 2⟩, ⟨.bare .popTop, 0⟩,
    ⟨.jump .jumpAbsolute, 2⟩, ⟨.loadConst, 0⟩, ⟨.bare .returnValue, 0⟩]

/-- The loop is accepted with depth two, and where an iterator gives a value its stack holds two. -/
theorem drainLoop_runs_agree :
    Depth.check drainLoop = .ok 2 ∧ ∃ seen deepest, Depth.survey drainLoop 0 = .ok (seen, deepest) ∧
      Recorded seen 3 ⟨2, []⟩ ∧ ∀ f : Frame, f.Matches drainLoop seen →
        f.stack.length ≤ 2 ∧ ∃ ins, drainLoop[f.ip]? = some ins := by
  have hcheck : Depth.check drainLoop = .ok 2 := by cbv
  obtain ⟨seen, deepest, hsurvey, -, hframes, -⟩ := check_ok_runs_agree hcheck
  have hrecord : Depth.survey drainLoop 0 = .ok ([some ⟨0, []⟩, some ⟨1, []⟩, some ⟨1, []⟩,
      some ⟨2, []⟩, some ⟨1, []⟩, some ⟨0, []⟩, some ⟨1, []⟩], 2) := by cbv
  refine ⟨hcheck, seen, deepest, hsurvey, ?_, fun f hf => ?_⟩
  · rw [hrecord] at hsurvey
    cases hsurvey
    rfl
  · obtain ⟨hle, ins, hi, -⟩ := hframes f hf
    exact ⟨hle, ins, hi⟩

end Bytewright
