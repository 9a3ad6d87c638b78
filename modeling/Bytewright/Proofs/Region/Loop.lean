import Bytewright.Proofs.Machine.Local
import Bytewright.Proofs.Region.Layout

/-!
# Loops run their body once for each item

A loop takes the items of a sequence once, when it is entered, so it does not matter what its body
does to the sequence meanwhile.
-/

namespace Bytewright

open Assemble Exec Generator

/-! ### Places in a run -/

/-- The frame is at this place, with this stack and these blocks. -/
structure Run.At (c : Code) (callers : List Frame) (blocks : List Block) (ip : Nat)
    (stack : List Value) (r : Run) : Prop where
  code_eq : r.frame.code = c
  callers_eq : r.callers = callers
  blocks_eq : r.frame.blocks = blocks
  ip_eq : r.frame.ip = ip
  stack_eq : r.frame.stack = stack

/-- The loop variable `x` is bound to `v`. -/
def Run.Binds (fast : Bool) (x : String) (v : Value) (r : Run) : Prop :=
  if fast then ∀ i : Nat, r.frame.code.varNames[i]? = some x → r.frame.fast[i]? = some (some v)
  else lookupGlobal r.memory.store r.frame.globals x = .ok v

theorem Store.iter_newIter (s : Store) (items : List Value) :
    (s.newIter items).2.iter ⟨s.iters.size⟩ = items := by
  simp [newIter, iter]

theorem Store.iter_setIter {s : Store} {it : IterRef} {v : Value} {items : List Value}
    (h : s.iter it = v :: items) (rest : List Value) : (s.setIter it rest).iter it = rest := by
  -- Only an iterator that is there has an item to give.
  have hlt : it.index < s.iters.size := by
    by_contra hge
    rw [iter, Array.getD_eq_getD_getElem?, Array.getElem?_eq_none (by omega)] at h
    cases h
  simp [setIter, iter, hlt]

namespace Run

variable {c : Code} {callers : List Frame} {blocks : List Block} {p t : Nat} {stack : List Value}
  {r : Run} {i : Instruction} {fast : Bool} {x : String}

section Proceed

variable {blocks' : List Block} {p' : Nat} {stack' : List Value} {m : Memory}
  (h : r.At c callers blocks p stack) (hi : c.code[p]? = some i)
  (hexecute : execute i p ⟨{ r.frame with ip := p + 1, blocks, stack }, r.memory⟩ =
    .ok .next ⟨{ r.frame with ip := p', blocks := blocks', stack := stack' }, m⟩)
include h hi hexecute

theorem At.exists_proceed :
    ∃ r', r.proceed = .running r' ∧ r'.At c callers blocks' p' stack' ∧ r'.memory = m ∧
      r'.frame = { r.frame with ip := p', blocks := blocks', stack := stack' } := by
  obtain ⟨f, waiting, n, memory⟩ := r
  obtain ⟨rfl, rfl, rfl, rfl, rfl⟩ := h
  exact ⟨_, proceed_of_next hi hexecute, ⟨rfl, rfl, rfl, rfl, rfl⟩, rfl, rfl⟩

theorem At.proceed :
    ∃ r', r.proceed = .running r' ∧ r'.At c callers blocks' p' stack' ∧ r'.memory = m := by
  obtain ⟨r', hr', hat, hmemory, -⟩ := h.exists_proceed hi hexecute
  exact ⟨r', hr', hat, hmemory⟩

end Proceed

theorem At.setupLoop {v : Value} (h : r.At c callers blocks p stack) (hi : c.code[p]? = some i)
    (hop : i.opcode = .jump .setupLoop) (ht : i.target p = some t) (hv : r.Binds fast x v) :
    ∃ r', r.proceed = .running r' ∧
      r'.At c callers (⟨.loop, t, stack.length⟩ :: blocks) (p + 1) stack ∧
      r'.Binds fast x v ∧ r'.memory = r.memory := by
  obtain ⟨r', hr', hat, hmemory, hframe⟩ := h.exists_proceed hi
    (@execute_enter i .loop t p hop ht _ _)
  refine ⟨r', hr', hat, ?_, hmemory⟩
  rwa [Binds, hframe, hmemory]

theorem At.load {v : Value} (h : r.At c callers blocks p stack) (hi : c.code[p]? = some i)
    (hop : i.opcode = .name (if fast then .loadFast else .loadGlobal))
    (hx : (c.pool (if fast then NameOp.loadFast else .loadGlobal).pool)[i.arg.toNat]? = some x)
    (hv : r.Binds fast x v) :
    ∃ r', r.proceed = .running r' ∧ r'.At c callers blocks (p + 1) (v :: stack) ∧
      r'.memory = r.memory := by
  have hcode := h.code_eq
  refine h.proceed hi ?_
  cases fast with
  | true =>
    have hfast : r.frame.fast[i.arg.toNat]? = some (some v) := hv _ (by rw [hcode]; exact hx)
    simp only [if_true] at hop hx
    simp only [execute, hop, Exec.frame, Bind.bind, EStateM.bind, hcode, hx, onName, hfast]
    rfl
  | false =>
    have hglobal : lookupGlobal r.memory.store r.frame.globals x = .ok v := hv
    simp only [Bool.false_eq_true, if_false] at hop hx
    simp only [execute, hop, Exec.frame, Exec.store, Bind.bind, EStateM.bind, hcode, hx,
      onName, hglobal, orFail]
    rfl

theorem At.getIter {v : Value} {items : List Value} (h : r.At c callers blocks p (v :: stack))
    (hi : c.code[p]? = some i) (hop : i.opcode = .bare .getIter)
    (hitems : r.memory.store.items? v = some items) :
    ∃ r', r.proceed = .running r' ∧
      r'.At c callers blocks (p + 1) (.iterator ⟨r.memory.store.iters.size⟩ :: stack) ∧
      r'.memory = { r.memory with store := (r.memory.store.newIter items).2 } := by
  refine h.proceed hi ?_
  cases v with
  | iterator => cases hitems
  | _ =>
    simp only [execute, hop, onBare, pop, iterate, Exec.store, Bind.bind, EStateM.bind, hitems]
    rfl

theorem At.forIter_cons {it : IterRef} {v : Value} {items : List Value}
    (h : r.At c callers blocks p (.iterator it :: stack)) (hi : c.code[p]? = some i)
    (hop : i.opcode = .jump .forIter) (hiter : r.memory.store.iter it = v :: items) :
    ∃ r', r.proceed = .running r' ∧
      r'.At c callers blocks (p + 1) (v :: .iterator it :: stack) ∧
      r'.memory = { r.memory with store := r.memory.store.setIter it items } := by
  refine h.proceed hi ?_
  simp only [execute, hop, onJump, Exec.frame, Exec.store, Bind.bind, EStateM.bind, hiter]
  rfl

theorem At.forIter_nil {it : IterRef} (h : r.At c callers blocks p (.iterator it :: stack))
    (hi : c.code[p]? = some i) (hop : i.opcode = .jump .forIter) (ht : i.target p = some t)
    (hle : t ≤ c.code.length) (hiter : r.memory.store.iter it = []) :
    ∃ r', r.proceed = .running r' ∧ r'.At c callers blocks t stack ∧ r'.memory = r.memory := by
  have hcode := h.code_eq
  refine h.proceed hi ?_
  simp only [execute, hop, ht, onJump, jumpTo, Exec.frame, setFrame, Exec.store,
    Bind.bind, EStateM.bind, hiter, hcode, if_pos hle]
  rfl

theorem At.jumpAbsolute (h : r.At c callers blocks p stack) (hi : c.code[p]? = some i)
    (hop : i.opcode = .jump .jumpAbsolute) (ht : i.target p = some t) (hle : t ≤ c.code.length) :
    ∃ r', r.proceed = .running r' ∧ r'.At c callers blocks t stack ∧ r'.memory = r.memory := by
  have hcode := h.code_eq
  refine h.proceed hi ?_
  simp only [execute, hop, ht, onJump, jumpTo, Exec.frame, Bind.bind, EStateM.bind,
    hcode, if_pos hle]
  rfl

theorem At.popBlock {b : Block} (h : r.At c callers (b :: blocks) p stack)
    (hi : c.code[p]? = some i) (hop : i.opcode = .bare .popBlock) :
    ∃ r', r.proceed = .running r' ∧ r'.At c callers blocks (p + 1) (truncate b.level stack) ∧
      r'.memory = r.memory :=
  h.proceed hi (execute_leave p hop rfl r.memory)

end Run

/-! ### Loops -/

/-- What stays the same while a loop runs. -/
structure LoopFrame where
  code : Code
  start : Nat
  bodyEnd : Nat
  callers : List Frame
  blocks : List Block
  stack : List Value

namespace LoopFrame

variable {s : LoopFrame} {it : IterRef} {v : Value} {items : List Value} {r head last : Run}

def block (s : LoopFrame) : Block := ⟨.loop, s.bodyEnd + 2, s.stack.length⟩

def AtHead (s : LoopFrame) (it : IterRef) : Run → Prop :=
  Run.At s.code s.callers (s.block :: s.blocks) (s.start + 3) (.iterator it :: s.stack)

def AtBody (s : LoopFrame) (it : IterRef) (v : Value) : Run → Prop :=
  Run.At s.code s.callers (s.block :: s.blocks) (s.start + 4) (v :: .iterator it :: s.stack)

def AtBodyEnd (s : LoopFrame) (it : IterRef) : Run → Prop :=
  Run.At s.code s.callers (s.block :: s.blocks) s.bodyEnd (.iterator it :: s.stack)

def AtEnd (s : LoopFrame) : Run → Prop :=
  Run.At s.code s.callers s.blocks (s.bodyEnd + 2) s.stack

/-- One instruction of the body, or of a function that it calls. -/
def BodyStep (s : LoopFrame) (r r' : Run) : Prop :=
  (s.callers.length < r.callers.length ∨ r.callers.length = s.callers.length ∧
    s.start + 4 ≤ r.frame.ip ∧ r.frame.ip < s.bodyEnd) ∧ r.proceed = .running r'

/-- Each round of the body comes to its end, with the iterator as it was. -/
def BodyEnds (s : LoopFrame) (r : Run) : Prop :=
  ∀ b it v, r.Proceeds b → s.AtBody it v b →
    ∃ e, Relation.ReflTransGen s.BodyStep b e ∧ s.AtBodyEnd it e ∧
      e.memory.store.iter it = b.memory.store.iter it

/-- The body is run once for each item, and then the loop is left. -/
inductive Rounds (s : LoopFrame) (it : IterRef) : List Value → Run → Run → Prop
  | exhausted {head leaving last : Run} (hhead : s.AtHead it head)
      (hnext : head.proceed = .running leaving) (hleave : leaving.proceed = .running last) :
      Rounds s it [] head last
  | round {v : Value} {items : List Value} {head first end_ next last : Run}
      (hhead : s.AtHead it head) (hnext : head.proceed = .running first)
      (hfirst : s.AtBody it v first) (hbody : Relation.ReflTransGen s.BodyStep first end_)
      (hend : s.AtBodyEnd it end_) (hback : end_.proceed = .running next)
      (hrest : Rounds s it items next last) : Rounds s it (v :: items) head last

theorem proceeds_of_bodySteps {r' : Run} (h : Relation.ReflTransGen s.BodyStep r r') :
    r.Proceeds r' := by
  have hle : s.BodyStep ≤ fun r r' => r.proceed = .running r' := fun _ _ hstep => hstep.2
  exact Relation.ReflTransGen.mono hle _ _ h

theorem Rounds.proceeds (h : s.Rounds it items head last) : head.Proceeds last := by
  induction h with
  | exhausted _ hnext hleave => exact .head hnext (.single hleave)
  | round _ hnext _ hbody _ hback _ ih =>
    exact .head hnext (Relation.ReflTransGen.trans (proceeds_of_bodySteps hbody) (.head hback ih))

/-- The instructions of the loop are where they should be. -/
structure Laid (s : LoopFrame) (load : NameOp) (x : String) : Prop where
  setupLoop : ∃ i, s.code.code[s.start]? = some i ∧ i.opcode = .jump .setupLoop ∧
    i.target s.start = some (s.bodyEnd + 2)
  load : ∃ i, s.code.code[s.start + 1]? = some i ∧ i.opcode = .name load ∧
    (s.code.pool load.pool)[i.arg.toNat]? = some x
  getIter : ∃ i, s.code.code[s.start + 2]? = some i ∧ i.opcode = .bare .getIter
  forIter : ∃ i, s.code.code[s.start + 3]? = some i ∧ i.opcode = .jump .forIter ∧
    i.target (s.start + 3) = some (s.bodyEnd + 1)
  jumpBack : ∃ i, s.code.code[s.bodyEnd]? = some i ∧ i.opcode = .jump .jumpAbsolute ∧
    i.target s.bodyEnd = some (s.start + 3)
  popBlock : ∃ i, s.code.code[s.bodyEnd + 1]? = some i ∧ i.opcode = .bare .popBlock

variable {load : NameOp} {x : String}

theorem exists_rounds (hs : s.Laid load x) (hbody : s.BodyEnds r) (hreach : r.Proceeds head)
    (hhead : s.AtHead it head) (hiter : head.memory.store.iter it = items) :
    ∃ last, s.Rounds it items head last ∧ s.AtEnd last := by
  obtain ⟨i, hi, hop, ht⟩ := hs.forIter
  induction items generalizing head with
  | nil =>
    obtain ⟨j, hj, hpop⟩ := hs.popBlock
    have hle : s.bodyEnd + 1 ≤ s.code.code.length := (List.getElem?_eq_some_iff.1 hj).1.le
    obtain ⟨leaving, hnext, hleaving, -⟩ := hhead.forIter_nil hi hop ht hle hiter
    obtain ⟨last, hleave, hlast, -⟩ := hleaving.popBlock hj hpop
    rw [truncate_of_le (show s.stack.length ≤ s.block.level from le_rfl)] at hlast
    exact ⟨last, .exhausted hhead hnext hleave, hlast⟩
  | cons v items ih =>
    obtain ⟨j, hj, hjump, hback⟩ := hs.jumpBack
    have hle : s.start + 3 ≤ s.code.code.length := (List.getElem?_eq_some_iff.1 hi).1.le
    obtain ⟨first, hnext, hfirst, htaken⟩ := hhead.forIter_cons hi hop hiter
    have hreach' : r.Proceeds first := hreach.tail hnext
    obtain ⟨e, hsteps, hend, hkept⟩ := hbody first it v hreach' hfirst
    obtain ⟨next, hnext', hathead, hmemory⟩ := hend.jumpAbsolute hj hjump hback hle
    have hreach'' : r.Proceeds next :=
      (Relation.ReflTransGen.trans hreach' (proceeds_of_bodySteps hsteps)).tail hnext'
    obtain ⟨last, hrounds, hlast⟩ := ih hreach'' hathead
      (by rw [hmemory, hkept, htaken, Store.iter_setIter hiter])
    exact ⟨last, .round hhead hnext hfirst hsteps hend hnext' hrounds, hlast⟩

end LoopFrame

/-! ### Emitted loops -/

section Emitted

variable {g g' : Generator} {x : String} {fast : Bool} {body : Emit Unit} {after : Stream}
  {fileName : String} {header : Header} {c : Code}

theorem laid_of_forLoop (hbody : Extends body) (hloop : forLoop x fast body g = .ok () g')
    (hcode : assemble fileName (g'.ops ++ after) header = .ok c) (hc : c.Addressable)
    (callers : List Frame) (blocks : List Block) (stack : List Value) :
    LoopFrame.Laid ⟨c, size g.ops, size g'.ops - 2, callers, blocks, stack⟩
      (if fast then .loadFast else .loadGlobal) x ∧ 2 ≤ size g'.ops := by
  have hopened : bracket
      [.jump .setupLoop ⟨g.labels.allocated + 2⟩,
        .name (if fast then .loadFast else .loadGlobal) x, .bare .getIter,
        .mark ⟨g.labels.allocated⟩, .jump .forIter ⟨g.labels.allocated + 1⟩]
      [.jump .jumpAbsolute ⟨g.labels.allocated⟩, .mark ⟨g.labels.allocated + 1⟩, .bare .popBlock,
        .mark ⟨g.labels.allocated + 2⟩] body
      { g with labels := ⟨g.labels.allocated + 3⟩ } = .ok () g' := hloop
  obtain ⟨⟨⟨i₁, hi₁, hop₁, ht₁⟩, ⟨i₂, hi₂, hop₂⟩, ⟨i₃, hi₃, hop₃⟩, hstart,
      ⟨i₄, hi₄, hop₄, ht₄⟩, -⟩, ⟨⟨i₅, hi₅, hop₅, ht₅⟩, hexhausted, ⟨i₆, hi₆, hop₆⟩, hdone, -⟩,
      hsize⟩ :=
    carries_of_bracket hbody hopened hcode hc (by simp) (by simp)
  rw [hexhausted] at ht₄
  rw [hdone] at ht₁
  rw [hstart] at ht₅
  exact ⟨⟨⟨i₁, hi₁, hop₁, ht₁⟩, ⟨i₂, hi₂, hop₂⟩, ⟨i₃, hi₃, hop₃⟩, ⟨i₄, hi₄, hop₄, ht₄⟩,
    ⟨i₅, hi₅, hop₅, ht₅⟩, ⟨i₆, hi₆, hop₆⟩⟩, hsize⟩

/-- A loop over a sequence.  Three instructions lead to its head.  If the body, from wherever the
run enters it, comes to its end with the iterator as it found it, then it runs once for each item
that the sequence had when the loop was entered, with the items in their order, and the run arrives
behind the loop with the stack and the blocks that it came with; or it is cut off at a limit
before. -/
theorem forLoop_runs_body_for_each_item {r : Run} {v : Value} {items : List Value}
    (hbody : Extends body) (hloop : forLoop x fast body g = .ok () g')
    (hcode : assemble fileName (g'.ops ++ after) header = .ok c) (hc : c.Addressable)
    (hunit : r.frame.code = c) (hip : r.frame.ip = size g.ops) (hv : r.Binds fast x v)
    (hitems : r.memory.store.items? v = some items) : let s : LoopFrame :=
      ⟨c, size g.ops, size g'.ops - 2, r.callers, r.frame.blocks, r.frame.stack⟩
    s.BodyEnds r →
      ∃ it r₁ r₂ head last, r.proceed = .running r₁ ∧ r₁.proceed = .running r₂ ∧
        r₂.proceed = .running head ∧ s.Rounds it items head last ∧
        last.At c r.callers r.frame.blocks (size g'.ops) r.frame.stack ∧
        ∀ limits, r.Arrives limits last := by
  intro s hends
  obtain ⟨hlaid, hsize⟩ : s.Laid _ x ∧ _ := laid_of_forLoop hbody hloop hcode hc _ _ _
  have hstop : s.bodyEnd + 2 = size g'.ops := Nat.sub_add_cancel hsize
  have hstart : r.At c r.callers r.frame.blocks s.start r.frame.stack := ⟨hunit, rfl, rfl, hip, rfl⟩
  obtain ⟨i, hi, hop, ht⟩ := hlaid.setupLoop
  obtain ⟨r₁, hr₁, hat₁, hv₁, hmemory₁⟩ := hstart.setupLoop hi hop ht hv
  obtain ⟨j, hj, hload, hx⟩ := hlaid.load
  obtain ⟨r₂, hr₂, hat₂, hmemory₂⟩ := hat₁.load hj hload hx hv₁
  obtain ⟨k, hk, hiter⟩ := hlaid.getIter
  obtain ⟨head, hhead, hathead, hmemory⟩ :=
    hat₂.getIter hk hiter (by rw [hmemory₂, hmemory₁]; exact hitems)
  have hleft : head.memory.store.iter ⟨r₂.memory.store.iters.size⟩ = items := by
    rw [hmemory, Store.iter_newIter]
  have hreach : r.Proceeds head := .head hr₁ (.head hr₂ (.single hhead))
  obtain ⟨last, hrounds, hlast⟩ := LoopFrame.exists_rounds hlaid hends hreach hathead hleft
  refine ⟨_, r₁, r₂, head, last, hr₁, hr₂, hhead, hrounds, hstop ▸ hlast, ?_⟩
  exact Run.Proceeds.arrives (Relation.ReflTransGen.trans hreach hrounds.proceeds)

end Emitted

def keepLast : Emit Unit := forLoop "items" true (push (.name .storeFast "last"))

def keepLastUnit : Code where
  argCount := 1
  numLocals := 2
  stackSize := 2
  flags := ⟨0x41⟩
  code := [⟨.jump .setupLoop, 6⟩, ⟨.name .loadFast, 0⟩, ⟨.bare .getIter, 0⟩, ⟨.jump .forIter, 2⟩,
    ⟨.name .storeFast, 1⟩, ⟨.jump .jumpAbsolute, 3⟩, ⟨.bare .popBlock, 0⟩, ⟨.loadConst, 0⟩,
    ⟨.bare .returnValue, 0⟩]
  varNames := ["items", "last"]
  fileName := "loops"
  name := "keep"
  firstLine := 0
  consts := [.none]

def keepLastRun : Run where
  frame :=
    { code := keepLastUnit
      fast := [some (.tuple [.int 4, .int 5]), none]
      names := ⟨0⟩
      globals := ⟨0⟩
      closure := [] }
  memory := { store := { scopes := #[[]] } }

/-- The loop over two items has two rounds and leaves an empty stack. -/
theorem keepLast_runs_twice :
    ∃ g', keepLast { fileName := "loops" } = .ok () g' ∧
      assemble "loops" (g'.ops ++ [.const .none, .bare .returnValue])
        { name := "keep", args := ["items"] } = .ok keepLastUnit ∧
      ∃ it r₁ r₂ head last, keepLastRun.proceed = .running r₁ ∧ r₁.proceed = .running r₂ ∧
        r₂.proceed = .running head ∧
        LoopFrame.Rounds ⟨keepLastUnit, 0, 5, [], [], []⟩ it [.int 4, .int 5] head last ∧
        last.At keepLastUnit [] [] 7 [] ∧ ∀ limits, keepLastRun.Arrives limits last := by
  have hbody : Extends (push (.name .storeFast "last")) := by
    rintro g _ ⟨⟩
    exact List.prefix_append _ _
  have hcode : assemble "loops" (Piece.looped 0 (.name .loadFast "items")
      [.name .storeFast "last"] ++ [.const .none, .bare .returnValue])
      { name := "keep", args := ["items"] } = .ok keepLastUnit := by cbv
  have haddressable : keepLastUnit.Addressable :=
    ⟨by decide, by decide, fun pool => by cases pool <;> decide⟩
  have hbinds : keepLastRun.Binds true "items" (.tuple [.int 4, .int 5]) := by
    intro i hi
    rcases i with _ | _ | i
    · rfl
    · exact absurd hi (by decide)
    · cases hi
  refine ⟨_, rfl, hcode, ?_⟩
  refine forLoop_runs_body_for_each_item hbody (g := { fileName := "loops" }) rfl hcode haddressable
    rfl rfl hbinds rfl ?_
  intro b it v _ hb
  obtain ⟨⟨_, fast, names, globals, closure, _, _, handled, _⟩, _, n, m⟩ := b
  obtain ⟨rfl, rfl, rfl, rfl, rfl⟩ := hb
  let stored : Frame := ⟨keepLastUnit, fast.set 1 (some v), names, globals, closure,
    [.iterator it], [⟨.loop, 7, 0⟩], handled, 5⟩
  refine ⟨⟨stored, [], n + 1, m⟩, .single ⟨.inr ⟨rfl, le_rfl, Nat.lt_succ_self 4⟩, rfl⟩, ?_, rfl⟩
  exact ⟨rfl, rfl, rfl, rfl, rfl⟩

end Bytewright
