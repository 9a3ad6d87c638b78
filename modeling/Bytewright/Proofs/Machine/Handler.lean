import Bytewright.Proofs.Machine.Agreement

/-!
# Exceptions and the checker of depths

The machine enters a handler from the middle of its block, and cuts the stack down to the level; a
stack that is lower stays as it is.  The checker does not ask for that, and there is accepted code
whose handler runs out of values.
-/

namespace Bytewright

open Depth (Record Recorded Survey Visited State)
open List

variable {code : List Instruction} {seen : Record} {deepest : Int} {f g h : Frame}
  {ins : Instruction}

/-! ### Finding a handler -/

abbrev levels (blocks : List Block) : List Int := blocks.map fun b => (b.level : Int)

namespace Frame

theorem findHandler?_eq_some {blocks outer : List Block} {stack stack' : List Value} {handler : Nat}
    (hfind : findHandler? blocks stack = some (handler, stack', outer)) :
    ∃ inner b, blocks = inner ++ b :: outer ∧ (∀ c ∈ inner, c.kind = .loop) ∧ b.kind = .except ∧
      handler = b.handler ∧
      (stack'.length = b.level ↔ b.level ≤ stack.length ∧ ∀ c ∈ inner, b.level ≤ c.level) := by
  induction blocks generalizing stack with
  | nil => cases hfind
  | cons c blocks ih =>
    unfold findHandler? at hfind
    cases hkind : c.kind with
    | except =>
      simp only [hkind] at hfind
      cases hfind
      refine ⟨[], c, rfl, by simp, hkind, rfl, ?_⟩
      simp [length_truncate]
    | loop =>
      simp only [hkind] at hfind
      obtain ⟨inner, b, rfl, hloops, hb, rfl, hiff⟩ := ih hfind
      refine ⟨c :: inner, b, rfl, ?_, hb, rfl, ?_⟩
      · intro c' hc'
        rcases mem_cons.1 hc' with rfl | hc'
        · exact hkind
        · exact hloops c' hc'
      · rw [hiff, length_truncate, le_inf_iff, forall_mem_cons]
        tauto

def HandlersRecorded (seen : Record) : List Block → Prop
  | [] => True
  | b :: outer =>
    (b.kind = .except → Recorded seen b.handler ⟨b.level + 3, levels outer⟩) ∧
      HandlersRecorded seen outer

theorem HandlersRecorded.of_append {inner outer : List Block} {b : Block}
    (hr : HandlersRecorded seen (inner ++ b :: outer)) (hb : b.kind = .except) :
    Recorded seen b.handler ⟨b.level + 3, levels outer⟩ ∧ HandlersRecorded seen outer := by
  induction inner with
  | nil => exact ⟨hr.1 hb, hr.2⟩
  | cons c inner ih => exact ih hr.2

/-- The frame matches the record, and so will its handlers, at the levels of their blocks. -/
structure Guarded (code : List Instruction) (seen : Record) (f : Frame) : Prop
    extends f.Matches code seen where
  handlers : HandlersRecorded seen f.blocks

/-- The handler is entered in the recorded state exactly if the stack is as high as the block's
level, and so is every loop in between. -/
def HandlerAgrees (code : List Instruction) (seen : Record) (g : Frame) : Prop :=
  ∀ e entries traceback h, g.enterHandler? e entries traceback = some h →
    ∃ inner b outer, g.blocks = inner ++ b :: outer ∧ (∀ c ∈ inner, c.kind = .loop) ∧
      b.kind = .except ∧ h.ip = b.handler ∧ h.blocks = outer ∧
      Recorded seen h.ip ⟨b.level + 3, levels outer⟩ ∧
      (h.stack.length = b.level + 3 ↔ b.level ≤ g.stack.length ∧ ∀ c ∈ inner, b.level ≤ c.level) ∧
      (h.Guarded code seen ↔ b.level ≤ g.stack.length ∧ ∀ c ∈ inner, b.level ≤ c.level)

theorem HandlersRecorded.handlerAgrees (hr : HandlersRecorded seen g.blocks)
    (hcode : g.code.code = code) : g.HandlerAgrees code seen := by
  intro e entries traceback h hh
  unfold enterHandler? at hh
  split at hh
  · cases hh
  · next handler stack' outer hfind =>
    obtain ⟨inner, b, hblocks, hloops, hb, rfl, hiff⟩ := findHandler?_eq_some hfind
    rw [hblocks] at hr
    obtain ⟨hrecorded, houter⟩ := hr.of_append hb
    cases hh
    refine ⟨inner, b, outer, hblocks, hloops, hb, rfl, rfl, hrecorded, ?_, ?_⟩
    · rw [← hiff]
      simp
    · rw [← hiff]
      constructor
      · intro hg
        have hstate := hg.recorded.unique hrecorded
        simp only [depths, State.mk.injEq, length_cons] at hstate
        omega
      · intro hlength
        refine ⟨⟨hcode, ?_⟩, houter⟩
        simp only [depths, length_cons, hlength]
        exact hrecorded

/-! ### Instructions of guarded frames -/

theorem Step.guarded {blocks : List Int} (h : f.Step ins g) (hf : f.Guarded code seen)
    (hv : Visited code seen f.ip f.depths ins blocks) : g.Guarded code seen := by
  refine ⟨h.matches hf.code_eq hv, ?_⟩
  cases h with
  | fall _ _ h | jump _ _ _ h => exact h.blocks_eq ▸ hf.handlers
  | @enter kind target hop ht h =>
    subst h
    refine ⟨fun hkind => ?_, hf.handlers⟩
    obtain rfl : kind = .except := hkind
    exact hv.jump hop ht
  | leave hop hb h =>
    subst h
    have hhandlers := hf.handlers
    rw [hb] at hhandlers
    exact hhandlers.2

def GoesOn (code : List Instruction) (seen : Record) (g : Frame) : Signal → Prop
  | .next => g.Guarded code seen
  | .ret _ => True
  | .call _ => (∀ v, (g.push v).Guarded code seen) ∧ g.HandlerAgrees code seen

theorem Guarded.execute_ends (hs : Survey code seen deepest []) (hf : f.Guarded code seen) :
    ∃ ins, code[f.ip]? = some ins ∧ ∀ memory,
      Exec.Ends (execute ins f.ip) ⟨f.ahead, memory⟩
        (fun signal m => m.frame.GoesOn code seen signal)
        (fun stop m => ∀ e entries again, stop = .raise e entries again →
          m.frame.HandlerAgrees code seen) := by
  obtain ⟨ins, hi⟩ := hf.exists_ins hs
  obtain ⟨blocks, hv, hends⟩ := hf.visited hs hi
  refine ⟨ins, hi, fun memory => (hends memory).mono (fun signal m hm => ?_) (fun stop m hm => ?_)⟩
  · cases signal with
    | next => exact Step.guarded hm hf hv
    | ret v => trivial
    | call callee =>
      obtain ⟨⟨op, hop⟩, hturns, -⟩ := hm
      have hhandlers : HandlersRecorded seen m.frame.blocks := hturns.blocks_eq ▸ hf.handlers
      refine ⟨fun v => ⟨hturns.push_matches hop hf.code_eq hv v, hhandlers⟩, ?_⟩
      exact hhandlers.handlerAgrees (by rw [hturns.code_eq, hf.code_eq])
  · rintro e entries again rfl
    have hhandlers : HandlersRecorded seen m.frame.blocks :=
      Interrupted.blocks_eq hm ▸ hf.handlers
    exact hhandlers.handlerAgrees (by rw [Interrupted.code_eq hm, hf.code_eq])

end Frame

theorem FunctionOf.bind_guarded {k : Function} {args : List Value} {kwargs : Keywords}
    {s s' : Store} (hstart : Recorded seen 0 ⟨0, []⟩) (hbind : k.bind args kwargs s = .ok (f, s'))
    (hcode : f.code.code = code) : f.Guarded code seen := by
  refine ⟨FunctionOf.bind_matches hstart hbind hcode, ?_⟩
  rw [(FunctionOf.bind_eq_ok hbind).2.2.1]
  trivial

/-! ### Code that keeps above its blocks -/

def Depth.sheltered (code : List Instruction) (seen : Record) : Bool :=
  (code.zip seen).all fun p => p.2.all fun s =>
    s.blocks.all fun level => decide (level + (p.1.opcode.effect p.1.arg).1 ≤ s.depth)

theorem Depth.level_le_of_sheltered {ip : Nat} {s : State} (h : Depth.sheltered code seen = true)
    (hi : code[ip]? = some ins) (hr : Recorded seen ip s) {level : Int} (hl : level ∈ s.blocks) :
    level + (ins.opcode.effect ins.arg).1 ≤ s.depth := by
  have hzip : (code.zip seen)[ip]? = some (ins, some s) :=
    getElem?_zip_eq_some.2 ⟨hi, hr⟩
  have hall := all_eq_true.1 h _ (mem_of_getElem? hzip)
  have hlevel := all_eq_true.1 hall level hl
  exact of_decide_eq_true hlevel

namespace Frame

/-- No block is opened below the level of one that is open. -/
structure Sheltered (code : List Instruction) (seen : Record) (f : Frame) : Prop
    extends f.Guarded code seen where
  nested : f.blocks.Pairwise fun b c => c.level ≤ b.level

structure Exposed (seen : Record) (g : Frame) : Prop where
  handlers : HandlersRecorded seen g.blocks
  nested : g.blocks.Pairwise fun b c => c.level ≤ b.level
  level_le : ∀ b ∈ g.blocks, b.level ≤ g.stack.length

theorem Exposed.handle (hg : g.Exposed seen) (hcode : g.code.code = code) {e : Exception}
    {entries : List TraceEntry} {traceback : Value}
    (hh : g.enterHandler? e entries traceback = some h) : h.Sheltered code seen := by
  obtain ⟨inner, b, outer, hblocks, -, -, -, houter, -, -, hiff⟩ :=
    hg.handlers.handlerAgrees hcode e entries traceback h hh
  have hnested := hg.nested
  rw [hblocks, pairwise_append, pairwise_cons] at hnested
  refine ⟨hiff.2 ⟨hg.level_le b (by simp [hblocks]), fun c hc => ?_⟩, ?_⟩
  · exact hnested.2.2 c hc b (mem_cons_self ..)
  · rw [houter]
    exact hnested.2.1.2

theorem Matches.level_le (hf : f.Matches code seen) (hsheltered : Depth.sheltered code seen = true)
    (hi : code[f.ip]? = some ins) {b : Block} (hb : b ∈ f.blocks) :
    b.level + (ins.opcode.effect ins.arg).1 ≤ f.stack.length := by
  have hlevel := Depth.level_le_of_sheltered hsheltered hi hf.recorded
    (mem_map_of_mem (f := fun b : Block => (b.level : Int)) hb)
  simp only [depths] at hlevel
  omega

theorem Step.sheltered {blocks : List Int} (h : f.Step ins g)
    (hsheltered : Depth.sheltered code seen = true) (hf : f.Sheltered code seen)
    (hv : Visited code seen f.ip f.depths ins blocks) : g.Sheltered code seen := by
  refine ⟨h.guarded hf.toGuarded hv, ?_⟩
  cases h with
  | fall _ _ h | jump _ _ _ h => exact h.blocks_eq ▸ hf.nested
  | enter hop ht h =>
    subst h
    refine pairwise_cons.2 ⟨fun c hc => ?_, hf.nested⟩
    have hlevel := hf.toMatches.level_le hsheltered hv.get_eq hc
    simp only
    omega
  | leave hop hb h =>
    subst h
    have hnested := hf.nested
    rw [hb] at hnested
    exact (pairwise_cons.1 hnested).2

theorem Sheltered.exposed (hsheltered : Depth.sheltered code seen = true)
    (hf : f.Sheltered code seen) (hi : code[f.ip]? = some ins) (hblocks : g.blocks = f.blocks)
    (hlength : f.stack.length ≤ g.stack.length + (ins.opcode.effect ins.arg).1) :
    g.Exposed seen := by
  refine ⟨hblocks ▸ hf.handlers, hblocks ▸ hf.nested, fun b hb => ?_⟩
  have hlevel := hf.toMatches.level_le hsheltered hi (hblocks ▸ hb)
  omega

def WaitsSheltered (code : List Instruction) (seen : Record) (c : Frame) : Prop :=
  (∀ v, (c.push v).Sheltered code seen) ∧ c.Exposed seen

theorem carries_sheltered (hs : Survey code seen deepest []) (hstart : Recorded seen 0 ⟨0, []⟩)
    (hsheltered : Depth.sheltered code seen = true) :
    Carries code (Sheltered code seen) (WaitsSheltered code seen) where
  fresh hbind hcode := by
    refine ⟨FunctionOf.bind_guarded hstart hbind hcode, ?_⟩
    rw [(FunctionOf.bind_eq_ok hbind).2.2.1]
    exact .nil
  next {f ins memory m} _ hf hi hm := by
    obtain ⟨blocks, hv, hends⟩ := hf.visited hs hi
    have hanswer := (Exec.ends_iff.1 (hends memory)).1 _ _ hm
    exact Step.sheltered hanswer hsheltered hf hv
  call {f ins callee memory m} _ hf hi hm := by
    obtain ⟨blocks, hv, hends⟩ := hf.visited hs hi
    obtain ⟨⟨op, hop⟩, hturns, -⟩ := (Exec.ends_iff.1 (hends memory)).1 _ _ hm
    have hblocks := hturns.blocks_eq
    refine ⟨fun v => ⟨⟨hturns.push_matches hop hf.code_eq hv v, ?_⟩, ?_⟩, ?_⟩
    · exact hblocks ▸ hf.handlers
    · exact hblocks ▸ hf.nested
    · refine hf.exposed hsheltered hi hblocks ?_
      rw [hturns.length_eq]
      omega
  ret hc := hc.1

theorem handles_sheltered (hs : Survey code seen deepest [])
    (hsheltered : Depth.sheltered code seen = true) :
    Handles code (Sheltered code seen) (WaitsSheltered code seen) (Exposed seen) where
  raise {f ins memory e entries again m} _ hf hi hm := by
    obtain ⟨blocks, hv, hends⟩ := hf.visited hs hi
    have hraise : f.Interrupted ins m.frame := (Exec.ends_iff.1 (hends memory)).2 _ _ hm
    obtain ⟨n, hn, hstack⟩ := hraise.stack_eq
    refine hf.exposed hsheltered hi hraise.blocks_eq ?_
    rw [hstack, length_drop]
    omega
  wait hc := hc.2
  handle hcode hg hh := hg.handle hcode hh

end Frame

def Run.Step (limits : Limits) (r r' : Run) : Prop := r.advance limits = .running r'

theorem Run.holds_sheltered (hs : Survey code seen deepest []) (hstart : Recorded seen 0 ⟨0, []⟩)
    (hsheltered : Depth.sheltered code seen = true) {limits : Limits} {r r' : Run}
    (hr : r.Holds code (Frame.Sheltered code seen) (Frame.WaitsSheltered code seen))
    (hsteps : Relation.ReflTransGen (Run.Step limits) r r') :
    r'.Holds code (Frame.Sheltered code seen) (Frame.WaitsSheltered code seen) := by
  induction hsteps with
  | refl => exact hr
  | tail _ hstep ih =>
    exact ih.advance (Frame.carries_sheltered hs hstart hsheltered)
      (fun _ => Frame.handles_sheltered hs hsheltered) hstep

/-! ### What the record says about exceptions -/

/-- Exceptions in accepted code.  The handlers of a fresh frame, and of every frame that
instructions lead to from there, are recorded.  When an instruction raises, or a call it has made
does, the handler that is found is entered three values above the level of its block, and the frame
is in the recorded state, exactly if neither the stack nor a loop in between is lower than the
block.  If no instruction takes a value from below the level of an open block, then in every run,
whatever exceptions are raised, the frames of the code are in recorded states, and none of them
lacks a value, a block or an instruction. -/
theorem check_ok_handlers_agree {code : List Instruction} {n : UInt32}
    (hcheck : Depth.check code = .ok n) :
    ∃ seen deepest, Depth.survey code 0 = .ok (seen, deepest) ∧
      (∀ (k : Function) args kwargs s f s', k.code.code = code →
        k.bind args kwargs s = .ok (f, s') → f.Guarded code seen) ∧
      (∀ f : Frame, f.Guarded code seen → ∃ ins, code[f.ip]? = some ins ∧ ∀ memory,
        Exec.Ends (execute ins f.ip) ⟨{ f with ip := f.ip + 1 }, memory⟩
          (fun signal m => m.frame.GoesOn code seen signal)
          (fun stop m => ∀ e entries again, stop = .raise e entries again →
            m.frame.HandlerAgrees code seen)) ∧
      (Depth.sheltered code seen = true →
        ∀ (k : Function) args kwargs s f s' limits memory r, k.bind args kwargs s = .ok (f, s') →
          Relation.ReflTransGen (Run.Step limits) { frame := f, memory } r →
          r.frame.code.code = code → r.frame.Matches code seen ∧
            ∀ cause active memory, r.advance limits = .ended (.fatal cause active) memory →
              cause.ofDepth = false) := by
  obtain ⟨seen, deepest, hsurvey, -, -⟩ := Depth.checkFrom_eq_ok_iff.1 hcheck
  obtain ⟨hs, hstart⟩ := Depth.survey_closed hsurvey
  refine ⟨seen, deepest, hsurvey, fun k args kwargs s f s' hcode hbind => ?_,
    fun f hf => hf.execute_ends hs, ?_⟩
  · exact FunctionOf.bind_guarded hstart hbind (by rw [(FunctionOf.bind_eq_ok hbind).1, hcode])
  · intro hsheltered k args kwargs s f s' limits memory r hbind hsteps hcode
    have hfresh : Run.Holds code (Frame.Sheltered code seen) (Frame.WaitsSheltered code seen)
        { frame := f, memory } :=
      ⟨fun hcode => (Frame.carries_sheltered hs hstart hsheltered).fresh hbind hcode, by simp⟩
    have hframe := ((Run.holds_sheltered hs hstart hsheltered hfresh hsteps).frame hcode).toMatches
    exact ⟨hframe, fun cause active memory hended =>
      Run.ofDepth_eq_false_of_matches hs hframe hended⟩

def standingHandler : List Instruction :=
  [⟨.loadConst, 0⟩, ⟨.jump .setupExcept, 2⟩, ⟨.loadConst, 0⟩, ⟨.count .raiseVarargs, 0⟩,
    ⟨.bare .popTop, 0⟩, ⟨.bare .popTop, 0⟩, ⟨.bare .popTop, 0⟩, ⟨.bare .returnValue, 0⟩]

/-- The code keeps above its block, so its handler starts with four values in every run. -/
theorem standingHandler_handlers_agree :
    Depth.check standingHandler = .ok 4 ∧ ∃ seen deepest,
      Depth.survey standingHandler 0 = .ok (seen, deepest) ∧
      Depth.sheltered standingHandler seen = true ∧ Recorded seen 4 ⟨4, []⟩ ∧
      ∀ (k : Function) args kwargs s f s' limits memory r, k.bind args kwargs s = .ok (f, s') →
        Relation.ReflTransGen (Run.Step limits) { frame := f, memory } r →
        r.frame.code.code = standingHandler → r.frame.Matches standingHandler seen := by
  have hcheck : Depth.check standingHandler = .ok 4 := by cbv
  obtain ⟨seen, deepest, hsurvey, -, -, hruns⟩ := check_ok_handlers_agree hcheck
  have hrecord : Depth.survey standingHandler 0 = .ok ([some ⟨0, []⟩, some ⟨1, []⟩, some ⟨1, [1]⟩,
      some ⟨2, [1]⟩, some ⟨4, []⟩, some ⟨3, []⟩, some ⟨2, []⟩, some ⟨1, []⟩], 4) := by cbv
  have hseen := hsurvey
  rw [hrecord] at hseen
  cases hseen
  have hsheltered : Depth.sheltered standingHandler [some ⟨0, []⟩, some ⟨1, []⟩, some ⟨1, [1]⟩,
      some ⟨2, [1]⟩, some ⟨4, []⟩, some ⟨3, []⟩, some ⟨2, []⟩, some ⟨1, []⟩] = true := by decide
  refine ⟨hcheck, _, _, hsurvey, hsheltered, rfl, ?_⟩
  intro k args kwargs s f s' limits memory r hbind hsteps hcode
  exact (hruns hsheltered k args kwargs s f s' limits memory r hbind hsteps hcode).1

def fallenHandler : Code where
  stackSize := 4
  code := [⟨.loadConst, 0⟩, ⟨.jump .setupExcept, 2⟩, ⟨.bare .popTop, 0⟩,
    ⟨.count .raiseVarargs, 0⟩, ⟨.bare .popTop, 0⟩, ⟨.bare .popTop, 0⟩, ⟨.bare .popTop, 0⟩,
    ⟨.bare .returnValue, 0⟩]
  fileName := "<raw>"
  name := "raw"
  firstLine := 0
  consts := [.none]

def fallenFrame (ip : Nat) (stack : List Value) (blocks : List Block)
    (handled : Option (Exception × List TraceEntry)) : Frame :=
  { code := fallenHandler, fast := [], names := ⟨0⟩, globals := ⟨0⟩, closure := [], stack, blocks,
    handled, ip }

/-- The unit is accepted, with four values where its handler starts; the machine starts the handler
with three, and it runs out of values. -/
theorem fallenHandler_underflows :
    Depth.check fallenHandler.code = .ok 4 ∧
      ∃ memory, Machine.callResult 8 {} (.function ⟨0, fallenHandler, [], ⟨0⟩, []⟩) [] [] =
        some (.fatal (.underflow 7) ["raw"], memory) := by
  refine ⟨by cbv, ?_⟩
  have hbind (s : Store) : FunctionOf.bind ⟨0, fallenHandler, [], ⟨0⟩, []⟩ [] [] s =
    .ok (fallenFrame 0 [] [] none, s) := by cbv
  have hload (memory : Memory) : Run.advance {} ⟨fallenFrame 0 [] [] none, [], 0, memory⟩ =
    .running ⟨fallenFrame 1 [.none] [] none, [], 1, memory⟩ := rfl
  have henter (memory : Memory) : Run.advance {} ⟨fallenFrame 1 [.none] [] none, [], 1, memory⟩ =
    .running ⟨fallenFrame 2 [.none] [⟨.except, 4, 1⟩] none, [], 2, memory⟩ := rfl
  have hdrop (memory : Memory) :
    Run.advance {} ⟨fallenFrame 2 [.none] [⟨.except, 4, 1⟩] none, [], 2, memory⟩ =
      .running ⟨fallenFrame 3 [] [⟨.except, 4, 1⟩] none, [], 3, memory⟩ := rfl
  have hraise (memory : Memory) : ∃ e entries traceback memory',
      Run.advance {} ⟨fallenFrame 3 [] [⟨.except, 4, 1⟩] none, [], 3, memory⟩ = .running
        ⟨fallenFrame 4 [.exceptionType e.kind, .exception e, traceback] [] (some (e, entries)), [],
          4, memory'⟩ := ⟨_, _, _, _, rfl⟩
  have hhandler (a b c : Value) (handled : Option (Exception × List TraceEntry))
      (memory : Memory) : Run.go {} 4 ⟨fallenFrame 4 [a, b, c] [] handled, [], 4, memory⟩ =
        some (.fatal (.underflow 7) ["raw"], memory) := rfl
  rw [Machine.callResult_of_bind (by decide) (hbind _)]
  obtain ⟨e, entries, traceback, memory', hraise⟩ := hraise _
  refine ⟨memory', ?_⟩
  rw [Run.go_of_running (hload _), Run.go_of_running (henter _), Run.go_of_running (hdrop _),
    Run.go_of_running hraise, hhandler]

end Bytewright
