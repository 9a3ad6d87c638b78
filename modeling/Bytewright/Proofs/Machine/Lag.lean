import Bytewright.Proofs.Depth.Paths
import Bytewright.Proofs.Machine.Handler
import Bytewright.Proofs.Machine.Local

/-!
# Frames that lag behind the record

An exception may leave a frame with fewer values than recorded.  A frame that comes to the end of a
block holds no more values than when the block was opened.
-/

namespace Bytewright

open Depth (Record Recorded Survey Visited State)
open List

/-! ### Handlers inside of blocks -/

variable {inner blocks : List Block} {levels : List Int} {stack stack' : List Value} {handler : Nat}

namespace Frame

def leaving (blocks : List Block) (stack : List Value) : List Value :=
  blocks.foldl (fun stack b => truncate b.level stack) stack

theorem findHandler?_append (inner outer : List Block) (stack : List Value) :
    findHandler? (inner ++ outer) stack = match findHandler? inner stack with
      | some (handler, stack', between) => some (handler, stack', between ++ outer)
      | none => findHandler? outer (leaving inner stack) := by
  induction inner generalizing stack with
  | nil => rfl
  | cons b inner ih =>
    rw [cons_append, findHandler?, findHandler?]
    cases b.kind with
    | except => rfl
    | loop => exact ih (truncate b.level stack)

theorem findHandler?_eq_none (h : ∀ b ∈ blocks, b.kind = .loop) (stack : List Value) :
    findHandler? blocks stack = none := by
  induction blocks generalizing stack with
  | nil => rfl
  | cons b blocks ih =>
    rw [findHandler?, h b mem_cons_self]
    exact ih (fun c hc => h c (mem_cons_of_mem _ hc)) _

theorem findHandler?_of_suffix {outer left : List Block}
    (hfind : findHandler? (inner ++ outer) stack = some (handler, stack', left))
    (hleft : outer <:+ left) :
    ∃ between, findHandler? inner stack = some (handler, stack', between) ∧
      left = between ++ outer := by
  rw [findHandler?_append] at hfind
  split at hfind
  · next handler stack' between hinner =>
    cases hfind
    exact ⟨between, hinner, rfl⟩
  · obtain ⟨passed, b, houter, -⟩ := findHandler?_eq_some hfind
    have hle := hleft.length_le
    rw [houter, length_append, length_cons] at hle
    omega

end Frame

/-! ### Levels that lag -/

inductive LowBlocks (seen : Record) (lag : Int) (outer : List Int) : List Block → List Int → Prop
  | nil : LowBlocks seen lag outer [] outer
  | cons {b : Block} {inner : List Block} {level : Int} {levels : List Int}
      (hlevel : b.level + lag ≤ level)
      (hhandler : b.kind = .except → Recorded seen b.handler ⟨level + 3, levels⟩)
      (h : LowBlocks seen lag outer inner levels) :
      LowBlocks seen lag outer (b :: inner) (level :: levels)

variable {code : List Instruction} {seen : Record} {deepest lag : Int} {outer : List Int}
  {rest : List Block} {f g h : Frame} {ins : Instruction} {memory : Memory} {m : Moment}

theorem LowBlocks.findHandler? {between : List Block} (hlow : LowBlocks seen lag outer inner levels)
    (hfind : Frame.findHandler? inner stack = some (handler, stack', between)) :
    ∃ level levels', Recorded seen handler ⟨level + 3, levels'⟩ ∧ stack'.length + lag ≤ level ∧
      LowBlocks seen lag outer between levels' := by
  induction hlow generalizing stack with
  | nil => cases hfind
  | @cons b inner level levels hlevel hhandler hinner ih =>
    rw [Frame.findHandler?] at hfind
    cases hkind : b.kind with
    | except =>
      rw [hkind] at hfind
      cases hfind
      refine ⟨level, levels, hhandler hkind, ?_, hinner⟩
      rw [length_truncate]
      omega
    | loop =>
      rw [hkind] at hfind
      exact ih hfind

namespace Frame

section

variable (code seen lag outer rest)

structure Low (f : Frame) : Prop where
  code_eq : f.code.code = code
  blocks : ∃ inner levels, f.blocks = inner ++ rest ∧ LowBlocks seen lag outer inner levels

/-- The frame has at least `lag` values less than recorded, and `rest` is still open. -/
structure Lags (f : Frame) : Prop where
  code_eq : f.code.code = code
  state : ∃ s inner, Recorded seen f.ip s ∧ f.stack.length + lag ≤ s.depth ∧
    f.blocks = inner ++ rest ∧ LowBlocks seen lag outer inner s.blocks

def WaitsLagging (c : Frame) : Prop :=
  c.Low code seen lag outer rest ∧ ∀ v, (c.push v).Lags code seen lag outer rest

end

variable {s : State} {e : Exception} {entries : List TraceEntry} {ip taken : Nat}
  {kinds : List Kind}

theorem Low.handle (hg : g.Low code seen lag outer rest) {traceback : Value}
    (hh : g.enterHandler? e entries traceback = some h) (hrest : rest <:+ h.blocks) :
    h.Lags code seen lag outer rest := by
  obtain ⟨inner, levels, hblocks, hlow⟩ := hg.blocks
  rw [enterHandler?] at hh
  split at hh
  · cases hh
  · next handler stack' left hfind =>
    cases hh
    rw [hblocks] at hfind
    obtain ⟨between, hinner, rfl⟩ := findHandler?_of_suffix hfind hrest
    obtain ⟨level, levels', hrecorded, hle, hbetween⟩ := hlow.findHandler? hinner
    refine ⟨hg.code_eq, _, between, hrecorded, ?_, rfl, hbetween⟩
    simp only [length_cons]
    omega

/-! ### Instructions of frames that lag -/

abbrev filling (ins : Instruction) : List Value :=
  replicate (ins.opcode.effect ins.arg).1 .none

theorem answers_of_local {signal : Signal} (hop : ins.opcode.movesBlock = false)
    (hm : execute ins f.ip ⟨f.ahead, memory⟩ = .ok signal m) :
    (f.embed (filling ins) f.blocks).Answers ins signal
      (m.frame.embed (filling ins) f.blocks) := by
  have hfull := (local_execute ins f.ip hop).ok hm (filling ins) f.blocks
  have hends := execute_ends ins (f.embed (filling ins) f.blocks) memory (by simp [embed])
  exact (Exec.ends_iff.1 hends).1 _ _ hfull

theorem Turns.length_of_embed {more : List Value} {blocks' : List Block}
    (h : (f.embed more blocks).Turns (g.embed more blocks') ip taken kinds)
    (hle : taken ≤ more.length) :
    (g.stack.length : Int) = kinds.length + f.stack.length - taken := by
  have hlength := h.length_eq
  simp only [embed, length_append] at hlength
  omega

theorem Lags.of_turns {depth : Int} (hcode : f.code.code = code)
    (hle : f.stack.length + lag ≤ s.depth) (hlow : LowBlocks seen lag outer inner s.blocks)
    (hg : g.blocks = inner ++ rest)
    (hturns : (f.embed (filling ins) f.blocks).Turns (g.embed (filling ins) f.blocks) ip taken
      kinds) (htaken : taken ≤ (ins.opcode.effect ins.arg).1)
    (hr : Recorded seen ip ⟨depth, s.blocks⟩) (hdepth : depth = s.depth - taken + kinds.length) :
    g.Lags code seen lag outer rest := by
  have hlength := hturns.length_of_embed (by simpa using htaken)
  have hip : g.ip = ip := hturns.ip_eq
  have hunit : g.code = f.code := hturns.code_eq
  refine ⟨by rw [hunit, hcode], ⟨depth, s.blocks⟩, inner, ?_, ?_, hg, hlow⟩
  · rw [hip]
    exact hr
  · dsimp only
    omega

theorem Step.lags (h : f.Step ins g) (hop : ins.opcode.movesBlock = true)
    (hcode : f.code.code = code) (hle : f.stack.length + lag ≤ s.depth)
    (hblocks : f.blocks = inner ++ rest) (hlow : LowBlocks seen lag outer inner s.blocks)
    (hv : Visited code seen f.ip s ins levels) (hrest : rest <:+ g.blocks) :
    g.Lags code seen lag outer rest := by
  cases h with
  | fall _ hblock | jump hblock => exact absurd (hop.symm.trans hblock) Bool.noConfusion
  | @enter kind target hopens ht h =>
    subst h
    have hflow : ins.opcode.endsFlow = false := by
      rw [hopens]
      cases kind <;> rfl
    have hnext := hv.next hflow
    have hleave := hv.leave_eq
    have hjump := hv.jump hopens ht
    rw [hopens] at hnext hleave hjump
    cases kind with
    | loop =>
      cases hleave
      simp only [Opcode.effect, Depth.enter] at hnext
      refine ⟨hcode, _, _ :: inner, hnext, ?_, congrArg (_ :: ·) hblocks, .cons hle (by simp) hlow⟩
      simpa using hle
    | except =>
      cases hleave
      simp only [Opcode.effect, Depth.enter] at hnext
      refine ⟨hcode, _, _ :: inner, hnext, ?_, congrArg (_ :: ·) hblocks,
        .cons hle (fun _ => hjump) hlow⟩
      simpa using hle
  | @leave b left hcloses hb h =>
    subst h
    have hnext := hv.next (by rw [hcloses]; rfl)
    have hleave := hv.leave_eq
    rw [hcloses] at hnext hleave
    rw [hb] at hblocks
    obtain ⟨depth, recorded⟩ := s
    cases hlow with
    | nil =>
      -- The block would be one of `rest`.
      have hlength := hrest.length_le
      rw [nil_append] at hblocks
      rw [← hblocks, length_cons] at hlength
      exact absurd hlength (by simp)
    | cons hlevel _ hinner =>
      obtain ⟨rfl, rfl⟩ := cons.inj hblocks
      simp only [Depth.leave] at hleave
      split_ifs at hleave
      cases hleave
      simp only [Opcode.effect, Depth.enter] at hnext
      refine ⟨hcode, _, _, hnext, ?_, rfl, hinner⟩
      simp only [length_truncate] at hle ⊢
      omega

theorem Lags.next (hs : Survey code seen deepest []) (hf : f.Lags code seen lag outer rest)
    (hi : code[f.ip]? = some ins) (hm : execute ins f.ip ⟨f.ahead, memory⟩ = .ok .next m)
    (hrest : rest <:+ m.frame.blocks) : m.frame.Lags code seen lag outer rest := by
  obtain ⟨s, inner, hr, hle, hblocks, hlow⟩ := hf.state
  obtain ⟨ins', levels, hv⟩ := hs.visited hr
  obtain rfl : ins' = ins := Option.some.inj (hv.get_eq.symm.trans hi)
  by_cases hop : ins'.opcode.movesBlock = true
  · have hstep : f.Step ins' m.frame := (Exec.ends_iff.1 (ends_of_movesBlock hop)).1 _ _ hm
    exact hstep.lags hop hf.code_eq hle hblocks hlow hv hrest
  · rw [Bool.not_eq_true] at hop
    have hkept : m.frame.blocks = inner ++ rest :=
      ((local_execute ins' f.ip hop).blocks_of_ok hm).trans hblocks
    have hlevels := Depth.leave_eq_ok_of_movesBlock_eq_false hop hv.leave_eq
    have hstep : Step ins' _ _ := answers_of_local hop hm
    cases hstep with
    | fall hflow _ h =>
      have hnext := hv.next hflow
      rw [Depth.enter_of_movesBlock_eq_false _ _ hop, hlevels] at hnext
      exact .of_turns hf.code_eq hle hlow hkept h le_rfl hnext (by rw [length_leaves])
    | jump _ ht _ h =>
      obtain ⟨op, hjump⟩ := Instruction.exists_jump_of_target ht
      have htarget := hv.jump hjump ht
      rw [hlevels, hjump, Depth.jumpState_of_movesBlock_eq_false (hjump ▸ hop), ← hjump] at htarget
      exact .of_turns hf.code_eq hle hlow hkept h le_rfl htarget (by simp)
    | @enter kind _ hopens =>
      rw [hopens] at hop
      cases kind <;> cases hop
    | leave hcloses =>
      rw [hcloses] at hop
      cases hop

theorem Lags.call {callee : Frame} (hs : Survey code seen deepest [])
    (hf : f.Lags code seen lag outer rest) (hi : code[f.ip]? = some ins)
    (hm : execute ins f.ip ⟨f.ahead, memory⟩ = .ok (.call callee) m) :
    m.frame.WaitsLagging code seen lag outer rest := by
  obtain ⟨s, inner, hr, hle, hblocks, hlow⟩ := hf.state
  obtain ⟨ins', levels, hv⟩ := hs.visited hr
  obtain rfl : ins' = ins := Option.some.inj (hv.get_eq.symm.trans hi)
  have hop := movesBlock_eq_false_of_call hm
  have hkept : m.frame.blocks = inner ++ rest :=
    ((local_execute ins' f.ip hop).blocks_of_ok hm).trans hblocks
  obtain ⟨⟨op, hcall⟩, hturns, -⟩ := answers_of_local hop hm
  have hunit : m.frame.code = f.code := hturns.code_eq
  refine ⟨⟨by rw [hunit, hf.code_eq], inner, _, hkept, hlow⟩, fun v => ?_⟩
  have hnext := hv.next (by rw [hcall]; rfl)
  rw [Depth.enter_of_movesBlock_eq_false _ _ hop,
    Depth.leave_eq_ok_of_movesBlock_eq_false hop hv.leave_eq] at hnext
  have heffect : (ins'.opcode.effect ins'.arg).2 = 1 := by rw [hcall, Exec.effect_call]
  exact .of_turns hf.code_eq hle hlow hkept (hturns.push v) le_rfl hnext (by rw [heffect]; rfl)

theorem Lags.raise {again : Bool} (hf : f.Lags code seen lag outer rest)
    (hm : execute ins f.ip ⟨f.ahead, memory⟩ = .error (.raise e entries again) m) :
    m.frame.Low code seen lag outer rest := by
  obtain ⟨s, inner, -, -, hblocks, hlow⟩ := hf.state
  have hunit : m.frame.code = f.code := (leaves_of_execute hm).sameUnit.code
  exact ⟨by rw [hunit, hf.code_eq], inner, s.blocks, (blocks_of_raise hm).trans hblocks, hlow⟩

/-! ### Between the ends of a block -/

theorem ahead_lags (kind : BlockKind) (hs : Survey code seen deepest [])
    (hcode : f.code.code = code) (hr : Recorded seen f.ip s) (hi : code[f.ip]? = some ins)
    (hop : ins.opcode = .jump (match kind with | .except => .setupExcept | .loop => .setupLoop)) :
    f.ahead.Lags code seen (s.depth - f.stack.length) (s.depth :: s.blocks) f.blocks := by
  obtain ⟨ins', levels, hv⟩ := hs.visited hr
  obtain rfl : ins' = ins := Option.some.inj (hv.get_eq.symm.trans hi)
  have hnext : Recorded seen (f.ip + 1) ⟨s.depth, s.depth :: s.blocks⟩ := by
    have hnext := hv.next (by rw [hop]; cases kind <;> rfl)
    have hleave := hv.leave_eq
    rw [hop] at hnext hleave
    cases kind <;> cases hleave <;> simpa [Opcode.effect, Depth.enter] using hnext
  refine ⟨hcode, _, [], hnext, ?_, rfl, .nil⟩
  show (f.stack.length : Int) + (s.depth - f.stack.length) ≤ s.depth
  omega

theorem Lags.length_le_of_popBlock {level : Int} (hs : Survey code seen deepest [])
    (hf : f.Lags code seen lag (level :: levels) rest) (hblocks : f.blocks = rest)
    (hi : code[f.ip]? = some ins) (hop : ins.opcode = .bare .popBlock) :
    f.stack.length + lag ≤ level := by
  obtain ⟨⟨depth, recorded⟩, inner, hr, hle, hinner, hlow⟩ := hf.state
  obtain ⟨ins', left, hv⟩ := hs.visited hr
  obtain rfl : ins' = ins := Option.some.inj (hv.get_eq.symm.trans hi)
  obtain rfl : inner = [] := append_cancel_right (hinner.symm.trans hblocks)
  cases hlow
  have hleave := hv.leave_eq
  rw [hop] at hleave
  simp only [Depth.leave] at hleave
  split_ifs at hleave
  dsimp only at hle
  omega

end Frame

end Bytewright
