import Bytewright.Proofs.Machine.Context
import Bytewright.Proofs.Machine.Lag

/-!
# A block around what a frame executes

Two runs that differ in one block of one frame do the same as long as the frame keeps the blocks
that are outside of it.
-/

namespace Bytewright

open List

variable {guard : Block} {outer : List Block} {callers : List Frame} {P W H : Frame → Prop}
  {f f' g h : Frame} {ins : Instruction} {memory : Memory} {m : Moment} {entries : List TraceEntry}
  {n : Nat} {again : Bool}

/-! ### Runs within blocks -/

/-- The frame above `callers` has kept its outer blocks. -/
def Run.Within (callers : List Frame) (outer : List Block) (r : Run) : Prop :=
  ∃ above f, r.frame :: r.callers = above ++ f :: callers ∧ outer <:+ f.blocks

/-- The run comes to the second one and keeps the outer blocks. -/
def Run.Balanced (callers : List Frame) (outer : List Block) : Run → Run → Prop :=
  Relation.ReflTransGen fun r r' => r.proceed = .running r' ∧ r'.Within callers outer

theorem Run.Within.length_le {r : Run} (h : r.Within callers outer) :
    callers.length ≤ r.callers.length := by
  obtain ⟨above, f, hframes, -⟩ := h
  have hlength := congrArg length hframes
  simp only [length_cons, length_append] at hlength
  omega

theorem Run.Within.suffix (h : Run.Within callers outer ⟨f, callers, n, memory⟩) :
    outer <:+ f.blocks := by
  obtain ⟨above, g, hframes, hg⟩ := h
  obtain ⟨-, hfg⟩ := append_inj' (show [] ++ f :: callers = above ++ g :: callers from hframes)
    rfl
  rw [(cons.inj hfg).1]
  exact hg

structure Frame.Inside (outer : List Block) (P W H : Frame → Prop) : Prop where
  next : ∀ {f : Frame} {ins memory m}, P f → f.code.code[f.ip]? = some ins →
    execute ins f.ip ⟨f.ahead, memory⟩ = .ok .next m → outer <:+ m.frame.blocks → P m.frame
  call : ∀ {f : Frame} {ins callee memory m}, P f → f.code.code[f.ip]? = some ins →
    execute ins f.ip ⟨f.ahead, memory⟩ = .ok (.call callee) m → W m.frame
  ret : ∀ {c : Frame}, W c → ∀ v, P (c.push v)
  raise : ∀ {f : Frame} {ins memory e entries again m}, P f →
    execute ins f.ip ⟨f.ahead, memory⟩ = .error (.raise e entries again) m → H m.frame
  wait : ∀ {c : Frame}, W c → H c
  handle : ∀ {g h : Frame} {e entries traceback}, H g →
    g.enterHandler? e entries traceback = some h → outer <:+ h.blocks → P h

theorem Frame.Inside.ofUnit (h : Frame.Inside outer P W H) (c : Code) :
    Frame.Inside outer (fun f => f.code = c ∧ P f) (fun f => f.code = c ∧ W f)
      (fun f => f.code = c ∧ H f) where
  next hf hi hm hin :=
    ⟨(sameUnit_of_execute hm).1.code.trans hf.1, h.next hf.2 hi hm hin⟩
  call hf hi hm := ⟨(sameUnit_of_execute hm).1.code.trans hf.1, h.call hf.2 hi hm⟩
  ret hc v := ⟨hc.1, h.ret hc.2 v⟩
  raise hf hm := ⟨(leaves_of_execute hm).sameUnit.code.trans hf.1, h.raise hf.2 hm⟩
  wait hc := ⟨hc.1, h.wait hc.2⟩
  handle hg hh hin := ⟨(Run.code_of_enterHandler? hh).trans hg.1, h.handle hg.2 hh hin⟩

theorem Frame.inside_lags {code : List Instruction} {seen : Depth.Record} {deepest lag : Int}
    {levels : List Int} (hs : Depth.Survey code seen deepest []) :
    Frame.Inside outer (Frame.Lags code seen lag levels outer)
      (Frame.WaitsLagging code seen lag levels outer) (Frame.Low code seen lag levels outer) where
  next hf hi hm hin := hf.next hs (hf.code_eq ▸ hi) hm hin
  call hf hi hm := hf.call hs (hf.code_eq ▸ hi) hm
  ret hc := hc.2
  raise hf hm := hf.raise hm
  wait hc := hc.1
  handle hg hh hin := hg.handle hh hin

/-! ### Frames that differ in one block -/

/-- The frames are the same, but for one more block in the second. -/
def Frame.Shielded (guard : Block) (outer : List Block) (f f' : Frame) : Prop :=
  ∃ inner, f.blocks = inner ++ outer ∧ f' = { f with blocks := inner ++ guard :: outer }

section

variable (hf : f.Shielded guard outer f')
include hf

theorem Frame.Shielded.code_eq : f'.code = f.code := by
  obtain ⟨inner, -, rfl⟩ := hf
  rfl

theorem Frame.Shielded.ip_eq : f'.ip = f.ip := by
  obtain ⟨inner, -, rfl⟩ := hf
  rfl

theorem Frame.Shielded.push (v : Value) : (f.push v).Shielded guard outer (f'.push v) := by
  obtain ⟨inner, hblocks, rfl⟩ := hf
  exact ⟨inner, hblocks, rfl⟩

theorem Frame.Shielded.execute_ok {signal : Signal} (hop : ins.opcode.movesBlock = false)
    (hm : execute ins f.ip ⟨f.ahead, memory⟩ = .ok signal m) :
    ∃ g, execute ins f'.ip ⟨f'.ahead, memory⟩ = .ok signal ⟨g, m.memory⟩ ∧
      m.frame.Shielded guard outer g := by
  obtain ⟨inner, hblocks, rfl⟩ := hf
  have hlocal := local_execute ins f.ip hop
  have hok := hlocal.ok hm [] (inner ++ guard :: outer)
  simp only [Moment.embed, Frame.embed, append_nil] at hok
  exact ⟨_, hok, inner, (hlocal.blocks_of_ok hm).trans hblocks, rfl⟩

end

theorem Frame.Step.shielded (hstep : f.Step ins m.frame) (hop : ins.opcode.movesBlock = true)
    (hf : f.Shielded guard outer f')
    (hm : execute ins f.ip ⟨f.ahead, memory⟩ = .ok .next m) (hin : outer <:+ m.frame.blocks) :
    ∃ g, execute ins f'.ip ⟨f'.ahead, memory⟩ = .ok .next ⟨g, m.memory⟩ ∧
      m.frame.Shielded guard outer g := by
  obtain ⟨inner, hblocks, rfl⟩ := hf
  cases hstep with
  | fall _ hblock | jump hblock => exact absurd (hop.symm.trans hblock) Bool.noConfusion
  | enter hopens ht _ =>
    have hentered := execute_enter hopens ht f.ahead memory
    rw [hm] at hentered
    cases hentered
    exact ⟨_, execute_enter hopens ht _ memory, _ :: inner, congrArg (_ :: ·) hblocks, rfl⟩
  | @leave b left hcloses hb _ =>
    have hleft := execute_leave (f := f.ahead) f.ip hcloses hb memory
    rw [hm] at hleft
    cases hleft
    rw [hb] at hblocks
    cases inner with
    | nil =>
      -- The block would be one of the outer ones.
      have hlength := hin.length_le
      rw [nil_append] at hblocks
      rw [← hblocks, length_cons] at hlength
      exact absurd hlength (by simp)
    | cons c inner =>
      obtain ⟨rfl, rfl⟩ := cons.inj hblocks
      exact ⟨_, execute_leave f.ip hcloses rfl memory, inner, rfl, rfl⟩

section

variable (hf : f.Shielded guard outer f')
include hf

theorem Frame.Shielded.execute_next
    (hm : execute ins f.ip ⟨f.ahead, memory⟩ = .ok .next m) (hin : outer <:+ m.frame.blocks) :
    ∃ g, execute ins f'.ip ⟨f'.ahead, memory⟩ = .ok .next ⟨g, m.memory⟩ ∧
      m.frame.Shielded guard outer g := by
  by_cases hop : ins.opcode.movesBlock = true
  · have hstep : f.Step ins m.frame := (Exec.ends_iff.1 (ends_of_movesBlock hop)).1 _ _ hm
    exact hstep.shielded hop hf hm hin
  · exact hf.execute_ok (Bool.eq_false_iff.2 hop) hm

theorem Frame.Shielded.execute_raise {e : Exception}
    (hm : execute ins f.ip ⟨f.ahead, memory⟩ = .error (.raise e entries again) m) :
    ∃ g, execute ins f'.ip ⟨f'.ahead, memory⟩ = .error (.raise e entries again) ⟨g, m.memory⟩ ∧
      m.frame.Shielded guard outer g := by
  obtain ⟨inner, hblocks, rfl⟩ := hf
  have hop := movesBlock_eq_false_of_raise hm
  have hlocal := local_execute ins f.ip hop
  have hraise := hlocal.raise hm [] (inner ++ guard :: outer)
  simp only [Moment.embed, Frame.embed, append_nil] at hraise
  exact ⟨_, hraise, inner, (hlocal.blocks_of_raise hm).trans hblocks, rfl⟩

theorem Frame.Shielded.enterHandler? {e : Exception} {traceback : Value}
    (hh : f.enterHandler? e entries traceback = some h) (hin : outer <:+ h.blocks) :
    ∃ h', f'.enterHandler? e entries traceback = some h' ∧ h.Shielded guard outer h' := by
  obtain ⟨inner, hblocks, rfl⟩ := hf
  rw [Frame.enterHandler?] at hh
  split at hh
  · cases hh
  · next handler stack left hfind =>
    cases hh
    rw [hblocks] at hfind
    obtain ⟨between, hinner, rfl⟩ := findHandler?_of_suffix hfind hin
    refine ⟨_, ?_, between, rfl, rfl⟩
    simp only [Frame.enterHandler?, findHandler?_append, hinner]

end

/-! ### Runs that differ in one block -/

inductive Run.Shielded (guard : Block) (outer : List Block) (callers : List Frame)
    (P W : Frame → Prop) (r w : Run) : Prop
  | active (hr : r.callers = callers) (hw : w.callers = callers)
      (hframe : r.frame.Shielded guard outer w.frame) (hmemory : w.memory = r.memory)
      (hP : P r.frame)
  | waiting {above : List Frame} {f f' : Frame} (hr : r.callers = above ++ f :: callers)
      (hw : w.callers = above ++ f' :: callers) (hframe : w.frame = r.frame)
      (hmemory : w.memory = r.memory) (hf : f.Shielded guard outer f') (hW : W f)

namespace Run

variable {r r' w : Run} {above : List Frame}

theorem unwind_shielded (hinside : Frame.Inside outer P W H) (hf : f.Shielded guard outer f')
    (hH : H f) {e : Exception} {index : Nat}
    (hr : unwind e n memory f callers index entries again = .running r')
    (hin : r'.Within callers outer) (n' : Nat) :
    ∃ w', unwind e n' memory f' callers index entries again = .running w' ∧
      Shielded guard outer callers P W r' w' := by
  have hentry : f'.entry index = f.entry index := by simp only [Frame.entry, hf.code_eq]
  rw [unwind_eq] at hr ⊢
  rw [hentry]
  generalize (if again = true then entries else f.entry index :: entries) = traced at hr ⊢
  dsimp only at hr ⊢
  split at hr
  · next h hh =>
    cases hr
    obtain ⟨h', hh', hshielded⟩ := hf.enterHandler? hh hin.suffix
    rw [hh']
    exact ⟨_, rfl, .active rfl rfl hshielded rfl (hinside.handle hH hh hin.suffix)⟩
  · -- The exception would have left the frame.
    have hle := hin.length_le
    cases callers with
    | nil => cases hr
    | cons c callers =>
      have hlt := length_callers_of_unwind hr
      rw [length_cons] at hle
      omega

theorem Shielded.proceed_active (hinside : Frame.Inside outer P W H) (hr : r.callers = callers)
    (hw : w.callers = callers) (hframe : r.frame.Shielded guard outer w.frame)
    (hmemory : w.memory = r.memory) (hP : P r.frame) (hproceed : r.proceed = .running r')
    (hin : r'.Within callers outer) :
    ∃ w', w.proceed = .running w' ∧ Shielded guard outer callers P W r' w' := by
  have hcode : w.frame.code.code[w.frame.ip]? = r.frame.code.code[r.frame.ip]? := by
    rw [hframe.code_eq, hframe.ip_eq]
  have hle := hin.length_le
  obtain ⟨ins, hi, hcontinues⟩ := exists_continues hproceed
  cases hcontinues with
  | @next m hm =>
    rw [hr] at hin
    obtain ⟨g, hg, hshielded⟩ := hframe.execute_next hm hin.suffix
    rw [← hmemory] at hg
    refine ⟨⟨g, w.callers, w.steps + 1, m.memory⟩, ?_, .active hr hw hshielded rfl ?_⟩
    · simp only [proceed, hcode, hi, hg]
    · exact hinside.next hP hi hm hin.suffix
  | ret _ hc =>
    rw [← hr, hc] at hle
    simp at hle
  | @call callee m hm =>
    obtain ⟨g, hg, hshielded⟩ := hframe.execute_ok (movesBlock_eq_false_of_call hm) hm
    rw [← hmemory] at hg
    have hr' : m.frame :: r.callers = [] ++ m.frame :: callers := congrArg (m.frame :: ·) hr
    have hw' : g :: w.callers = [] ++ g :: callers := congrArg (g :: ·) hw
    refine ⟨⟨callee, g :: w.callers, w.steps + 1, m.memory⟩, ?_,
      .waiting hr' hw' rfl rfl hshielded (hinside.call hP hi hm)⟩
    simp only [proceed, hcode, hi, hg]
  | raise hm h =>
    obtain ⟨g, hg, hshielded⟩ := hframe.execute_raise hm
    rw [← hmemory] at hg
    rw [hr, ← hframe.ip_eq] at h
    obtain ⟨w', hw', hshielded'⟩ :=
      unwind_shielded hinside hshielded (hinside.raise hP hm) h hin (w.steps + 1)
    refine ⟨w', ?_, hshielded'⟩
    simp only [proceed, hcode, hi, hg, hw, hw']

theorem ne_append_cons (callers above : List Frame) (f : Frame) :
    callers ≠ above ++ f :: callers := by
  intro h
  have hlength := congrArg length h
  simp only [length_append, length_cons] at hlength
  omega

theorem eq_above {base : List Frame} (hr : r.callers = above ++ base) :
    r = Run.above base r.steps ⟨r.frame, above, 0, r.memory⟩ := by
  obtain ⟨frame, _, steps, memory⟩ := r
  cases hr
  rfl

section

variable (hinside : Frame.Inside outer P W H)
include hinside

theorem Shielded.proceed_waiting
    (hr : r.callers = above ++ f :: callers) (hw : w.callers = above ++ f' :: callers)
    (hframe : w.frame = r.frame) (hmemory : w.memory = r.memory) (hf : f.Shielded guard outer f')
    (hW : W f) (hproceed : r.proceed = .running r') (hin : r'.Within callers outer) :
    ∃ w', w.proceed = .running w' ∧ Shielded guard outer callers P W r' w' := by
  let top : Run := ⟨r.frame, above, 0, r.memory⟩
  have hwtop : w = top.above (f' :: callers) w.steps := by
    rw [eq_above hw, hframe, hmemory]
    rfl
  rw [eq_above hr, proceed_above] at hproceed
  rw [hwtop, proceed_above]
  change top.proceed.above _ _ _ = _ at hproceed
  cases htop : top.proceed with
  | running next =>
    rw [htop] at hproceed
    cases hproceed
    exact ⟨_, rfl, .waiting rfl rfl rfl rfl hf hW⟩
  | ended o memory =>
    rw [htop] at hproceed
    cases o with
    | value v =>
      cases hproceed
      exact ⟨_, rfl, .active rfl rfl (hf.push v) rfl (hinside.ret hW v)⟩
    | raised e entries =>
      obtain ⟨w', hw', hshielded⟩ :=
        unwind_shielded hinside hf (hinside.wait hW) hproceed hin (w.steps + top.steps + 1)
      rw [← hf.ip_eq] at hw'
      exact ⟨w', hw', hshielded⟩
    | fatal cause active | crashed => cases hproceed

theorem Shielded.proceed
    (h : Shielded guard outer callers P W r w) (hproceed : r.proceed = .running r')
    (hin : r'.Within callers outer) :
    ∃ w', w.proceed = .running w' ∧ Shielded guard outer callers P W r' w' := by
  cases h with
  | active hr hw hframe hmemory hP =>
    exact proceed_active hinside hr hw hframe hmemory hP hproceed hin
  | waiting hr hw hframe hmemory hf hW =>
    exact proceed_waiting hinside hr hw hframe hmemory hf hW hproceed hin

theorem Shielded.proceeds
    (h : Shielded guard outer callers P W r w) (hsteps : Balanced callers outer r r') :
    ∃ w', w.Proceeds w' ∧ Shielded guard outer callers P W r' w' := by
  induction hsteps with
  | refl => exact ⟨w, .refl, h⟩
  | tail _ hnext ih =>
    obtain ⟨w', hw', hshielded⟩ := ih
    obtain ⟨w'', hw'', hshielded'⟩ := hshielded.proceed hinside hnext.1 hnext.2
    exact ⟨w'', hw'.tail hw'', hshielded'⟩

end

/-! ### Exceptions that escape -/

inductive Throws (callers : List Frame) (e : Exception) (r : Run) : Frame → Memory → Prop
  | raised {ins : Instruction} {entries : List TraceEntry} {again : Bool} {m : Moment}
      (hr : r.callers = callers) (hi : r.frame.code.code[r.frame.ip]? = some ins)
      (hm : execute ins r.frame.ip ⟨r.frame.ahead, r.memory⟩ = .error (.raise e entries again) m) :
      Throws callers e r m.frame m.memory
  | called {above : List Frame} {f : Frame} {entries : List TraceEntry} {m : Memory}
      (hr : r.callers = above ++ f :: callers)
      (hended : Run.proceed ⟨r.frame, above, 0, r.memory⟩ = .ended (.raised e entries) m) :
      Throws callers e r f m

/-- The exception is raised where only loops are open above the outer blocks. -/
def Escapes (callers : List Frame) (outer : List Block) (e : Exception) (r : Run) (f : Frame)
    (memory : Memory) : Prop :=
  r.Throws callers e f memory ∧ ∃ inner, f.blocks = inner ++ outer ∧ ∀ b ∈ inner, b.kind = .loop

variable {e : Exception}

theorem Shielded.throws (hinside : Frame.Inside outer P W H)
    (h : Shielded guard outer callers P W r w) (hthrows : r.Throws callers e f memory) :
    H f ∧ ∃ f' n index entries again, f.Shielded guard outer f' ∧
      w.proceed = unwind e n memory f' callers index entries again := by
  cases h with
  | active hr hw hframe hmemory hP =>
    cases hthrows with
    | @raised _ entries again _ _ hi hm =>
      obtain ⟨g, hg, hshielded⟩ := hframe.execute_raise hm
      rw [← hframe.code_eq, ← hframe.ip_eq] at hi
      rw [← hmemory] at hg
      refine ⟨hinside.raise hP hm, g, w.steps + 1, w.frame.ip, entries, again, hshielded, ?_⟩
      simp only [Run.proceed, hi, hg, hw]
    | called hr' _ => exact absurd (hr.symm.trans hr') (ne_append_cons _ _ _)
  | @waiting _ _ f' hr hw hframe hmemory hf hW =>
    cases hthrows with
    | raised hr' _ _ => exact absurd (hr'.symm.trans hr) (ne_append_cons _ _ _)
    | @called _ _ entries _ hr' hended =>
      obtain ⟨rfl, hbase⟩ := append_inj' (hr.symm.trans hr') rfl
      obtain ⟨rfl, -⟩ := cons.inj hbase
      refine ⟨hinside.wait hW, f', w.steps + 0 + 1, f'.ip - 1, entries, false, hf, ?_⟩
      rw [eq_above hw, proceed_above, hframe, hmemory, hended]
      rfl

theorem Shielded.escape (hinside : Frame.Inside outer P W H)
    (h : Shielded guard outer callers P W r w) (hguard : guard.kind = .except)
    (hescapes : r.Escapes callers outer e f memory) :
    H f ∧ ∃ n traced stack, w.proceed = .running ⟨{ f with
        ip := guard.handler
        stack := .exceptionType e.kind :: .exception e ::
          (memory.store.newTraceback traced).1 :: stack
        blocks := outer
        handled := some (e, traced) },
      callers, n, { memory with store := (memory.store.newTraceback traced).2 }⟩ := by
  obtain ⟨hthrows, inner, hblocks, hloops⟩ := hescapes
  obtain ⟨hH, f', n, index, entries, again, ⟨inner', hblocks', rfl⟩, hproceed⟩ :=
    h.throws hinside hthrows
  obtain rfl : inner = inner' := append_cancel_right (hblocks.symm.trans hblocks')
  have hfind : Frame.findHandler? (inner ++ guard :: outer) f.stack =
      some (guard.handler, truncate guard.level (Frame.leaving inner f.stack), outer) := by
    rw [Frame.findHandler?_append, Frame.findHandler?_eq_none hloops]
    simp only [Frame.findHandler?, hguard]
  rw [unwind_eq] at hproceed
  dsimp only [Frame.enterHandler?] at hproceed
  rw [hfind] at hproceed
  exact ⟨hH, n, _, _, hproceed⟩

end Run

end Bytewright
