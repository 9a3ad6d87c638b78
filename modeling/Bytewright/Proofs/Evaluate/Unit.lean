import Bytewright.Proofs.Evaluate.Compile

/-!
# Units of trees

The unit of an expression ends with its value, and that of a suite with `None`; an exception that
the evaluation raises has left the frame.
-/

namespace Bytewright

open Assemble Eval List

variable {α : Type}

/-! ### Runs of units -/

/-- The run of a unit ends as the evaluation ends. -/
def Run.Concludes (r : Run) (value : α → Value) : EStateM.Result Halt Memory α → Prop
  | .ok a m => r.Finishes (.value (value a)) m
  | .error (.raise e entries) m => ∃ index < r.frame.code.code.length,
      r.Finishes (.raised e (r.frame.entry index :: entries)) m
  | .error (.fatal cause active) m => r.Finishes (.fatal cause (active ++ r.active)) m
  | .error .crash m => r.Finishes .crashed m
  | .error .unfinished _ => r.Endless

variable {value : α → Value} {c : Code} {f : Frame} {X : Env → Nat → Eval α} {fileName : String}
  {front : Stream} {header : Header}

theorem Run.unwind_of_blocks_eq_nil (hblocks : f.blocks = []) (e : Exception) (n : Nat) (m : Memory)
    (index : Nat) (entries : List TraceEntry) :
    Run.unwind e n m f [] index entries false =
      .ended (.raised e (f.entry index :: entries)) m := by
  rw [Run.unwind_eq]
  simp only [Frame.enterHandler?, hblocks, Frame.findHandler?]
  rfl

theorem Performs.concludes {q : Nat} {i : Instruction}
    (h : Performs c 0 q [] X fun a => [value a]) (hi : c.code[q]? = some i)
    (hop : i.opcode = .bare .returnValue) (hf : f.code = c) (hstack : f.stack = [])
    (hblocks : f.blocks = []) (hip : f.ip = 0) (n : Nat) (m : Memory) :
    ∃ answer, Eval.Settles (X f.env) m answer ∧ Run.Concludes ⟨f, [], n, m⟩ value answer := by
  obtain ⟨answer, hsettles, hcomes⟩ := h f [] n m [] hf
  have hstart : { f with stack := [] ++ [], ip := 0 } = f := by
    rw [← hip, append_nil, ← hstack]
  rw [hstart] at hcomes
  refine ⟨answer, hsettles, ?_⟩
  cases answer with
  | ok a m' =>
    obtain ⟨n', hn'⟩ := hcomes
    refine ⟨_, hn', ?_⟩
    have hi' : f.code.code[q]? = some i := hf ▸ hi
    simp only [Run.proceed, hi', execute, hop]
    rfl
  | error halt m' =>
    cases halt with
    | raise e entries =>
      obtain ⟨last, n', index, above, hlast, -, hindex, hproceed⟩ := hcomes
      have hended := Run.unwind_of_blocks_eq_nil
        (f := { f with stack := above ++ [], ip := index + 1 }) hblocks e n' m' index entries
      have hlt : q < f.code.code.length := hf ▸ (List.getElem?_eq_some_iff.1 hi).1
      exact ⟨index, hindex.trans hlt, last, hlast, hproceed.trans hended⟩
    | fatal cause active | crash | unfinished => exact hcomes

theorem Assembled.concludes
    (h : Assembled fileName (front ++ [.bare .returnValue]) header c) (hc : c.Addressable)
    (hapart : ConstantsApart (front ++ [.bare .returnValue]))
    (hfront : ∀ place, Realizes c place front [] X fun a => [value a]) (hf : f.code = c)
    (hstack : f.stack = []) (hblocks : f.blocks = []) (hip : f.ip = 0) (n : Nat) (m : Memory) :
    ∃ answer, Eval.Settles (X f.env) m answer ∧ Run.Concludes ⟨f, [], n, m⟩ value answer := by
  obtain ⟨hcarries, hreturn⟩ := carries_append.1 (h.carries hc hapart)
  obtain ⟨⟨i, hi, hop⟩, -⟩ := (carries_cons_of_isReal rfl).1 hreturn
  exact (hfront _ 0 hcarries).concludes hi hop hf hstack hblocks hip n m

/-! ### The machine -/

/-- The outcome and the memory are those of the evaluation, with a line of the unit in the
traceback. -/
def Answered (c : Code) (value : α → Value) :
    EStateM.Result Halt Memory α → Outcome → Memory → Prop
  | .ok a m, o, m' => o = .value (value a) ∧ m' = m
  | .error (.raise e entries) m, o, m' =>
    (∃ index < c.code.length,
      o = .raised e (⟨c.fileName, c.name, c.lineFor index⟩ :: entries)) ∧ m' = m
  | .error (.fatal cause active) m, o, m' => o = .fatal cause (active ++ [c.name]) ∧ m' = m
  | .error .crash m, o, m' => o = .crashed ∧ m' = m
  | .error .unfinished _, _, _ => False

theorem Run.Concludes.answered {r : Run} {answer : EStateM.Result Halt Memory α}
    (h : r.Concludes value answer) (hr : r.callers = []) {o : Outcome} {m : Memory}
    (hfinishes : r.Finishes o m) : Answered r.frame.code value answer o m := by
  cases answer with
  | ok a m' =>
    obtain ⟨rfl, rfl⟩ := hfinishes.unique h
    exact ⟨rfl, rfl⟩
  | error halt m' =>
    cases halt with
    | raise e entries =>
      obtain ⟨index, hindex, h⟩ := h
      obtain ⟨rfl, rfl⟩ := hfinishes.unique h
      exact ⟨⟨index, hindex, rfl⟩, rfl⟩
    | fatal cause active =>
      obtain ⟨rfl, rfl⟩ := hfinishes.unique h
      simp [Answered, Run.active, hr]
    | crash => exact hfinishes.unique h
    | unfinished =>
      obtain ⟨last, hlast, hended⟩ := hfinishes
      obtain ⟨r', hr'⟩ := h last hlast
      rw [hended] at hr'
      cases hr'

theorem Run.Concludes.finishes {r : Run} {answer : EStateM.Result Halt Memory α}
    (h : r.Concludes value answer) (hanswer : ∀ m, answer ≠ .error .unfinished m) :
    ∃ o m, r.Finishes o m := by
  cases answer with
  | ok a m => exact ⟨_, _, h⟩
  | error halt m =>
    cases halt with
    | raise e entries =>
      obtain ⟨index, -, h⟩ := h
      exact ⟨_, _, h⟩
    | fatal cause active | crash => exact ⟨_, _, h⟩
    | unfinished => exact (hanswer m rfl).elim

def Machine.entered (m : Machine) (c : Code) : Frame where
  code := c
  fast := replicate c.varNames.length none
  names := m.globals
  globals := m.globals
  closure := []

def Machine.prepared (m : Machine) : Memory := { m.memory with store := m.memory.store.fresh.2 }

theorem Machine.run_eq {ops : Stream} (h : Assembled fileName ops header c)
    (hargs : header.args = []) (hvarArgs : header.varArgs = false)
    (hvarKeywords : header.varKeywords = false) (hnewLocals : header.newLocals = false)
    (m : Machine) (fuel : Nat) :
    m.run fuel c =
      if m.limits.callDepth = 0 then
        some (.fatal (.callLimit m.limits.callDepth c.name) [], { m with memory := m.prepared })
      else (Run.go m.limits fuel { frame := m.entered c, memory := m.prepared }).map
        fun p => (p.1, { m with memory := p.2 }) := by
  obtain ⟨hrest, hextra, hnew⟩ := contains_flags ops header c.freeVars
  have hrest' : c.takesRest = false := by rw [CodeOf.takesRest, h.flags_eq, hrest, hvarArgs]
  have hextra' : c.takesExtra = false := by rw [CodeOf.takesExtra, h.flags_eq, hextra, hvarKeywords]
  have hnew' : c.flags.contains .newLocals = false := by rw [h.flags_eq, hnew, hnewLocals]
  have hcount : c.argCount.toNat = 0 := by
    rw [h.argCount_eq, argCount, hargs, length_nil, Nat.zero_sub]
    rfl
  let g : Function := (m.memory.store.newFunction c [] m.globals []).1
  have hbind : g.bind [] [] m.prepared.store = .ok (m.entered c, m.prepared.store) := by
    have hparams : c.params = [] := by rw [CodeOf.params, hcount, take_zero]
    have hslots : ¬g.code.varNames.length < g.code.argumentSlots := by
      show ¬c.varNames.length < c.argumentSlots
      rw [CodeOf.argumentSlots, hrest', hextra', hcount]
      exact Nat.not_lt_zero _
    have harguments : bindArguments g.code g.defaults [] [] = .ok ⟨[], [], []⟩ := by
      show bindArguments c [] [] [] = _
      simp only [bindArguments, hcount, length_nil, Nat.lt_irrefl, false_and, if_false,
        take_nil, map_nil, nil_append, Nat.sub_self, replicate_zero,
        bindKeywords, Bind.bind, Except.bind, hparams, bindDefaults, drop_nil]
      rfl
    have hrest'' : g.code.takesRest = false := hrest'
    have hextra'' : g.code.takesExtra = false := hextra'
    have hnew'' : g.code.flags.contains .newLocals = false := hnew'
    simp only [FunctionOf.bind, if_neg hslots, harguments, FunctionOf.frame, hrest'', hextra'',
      hnew'', Bool.false_eq_true, if_false]
    rfl
  show (m.setStore m.prepared.store).call fuel (.function g) [] [] = _
  have hprepared : (m.setStore m.prepared.store).memory.store = m.prepared.store := rfl
  simp only [Machine.call, Machine.callResult, hprepared, hbind]
  show Option.map _ (if m.limits.callDepth = 0 then _ else _) = _
  split_ifs
  · rfl
  · rfl

/-- Started in the globals of the machine, the unit ends as the evaluation ends, or at a limit, and
it ends if the evaluation does. -/
def Machine.RunsAs (m : Machine) (c : Code) (X : Env → Nat → Eval α) (value : α → Value) : Prop :=
  ∃ answer, Eval.Settles (X ⟨m.globals, m.globals⟩) m.prepared answer ∧
    (∀ fuel o m', m.run fuel c = some (o, m') → o.AtLimit ∨ Answered c value answer o m'.memory) ∧
    ((∀ mem, answer ≠ .error .unfinished mem) → ∃ fuel, (m.run fuel c).isSome = true)

theorem Machine.runsAs
    (h : Assembled fileName (front ++ [.bare .returnValue]) header c) (hargs : header.args = [])
    (hvarArgs : header.varArgs = false) (hvarKeywords : header.varKeywords = false)
    (hnewLocals : header.newLocals = false) (hc : c.Addressable)
    (hapart : ConstantsApart (front ++ [.bare .returnValue]))
    (hfront : ∀ place, Realizes c place front [] X fun a => [value a]) (m : Machine) :
    m.RunsAs c X value := by
  obtain ⟨answer, hsettles, hconcludes⟩ := h.concludes (f := m.entered c) hc hapart hfront rfl rfl
    rfl rfl 0 m.prepared
  refine ⟨answer, hsettles, fun fuel o m' hrun => ?_, fun hanswer => ?_⟩
  · rw [Machine.run_eq h hargs hvarArgs hvarKeywords hnewLocals] at hrun
    split_ifs at hrun
    · cases hrun
      exact .inl rfl
    · obtain ⟨⟨o', mem⟩, hgo, heq⟩ := Option.map_eq_some_iff.1 hrun
      cases heq
      exact (Run.finishes_of_go hgo).imp_right (hconcludes.answered rfl)
  · obtain ⟨o, mem, hfinishes⟩ := hconcludes.finishes hanswer
    obtain ⟨fuel, o', mem', hgo, -⟩ := hfinishes.exists_go m.limits
    refine ⟨fuel, ?_⟩
    rw [Machine.run_eq h hargs hvarArgs hvarKeywords hnewLocals]
    split_ifs
    · rfl
    · rw [hgo]
      rfl

/-! ### Compiled units -/

theorem eq_none_of_none_sameAs {k : Const} (h : Const.none.sameAs k = true) : k = .none := by
  cases k with
  | none => rfl
  | _ => simp [Const.sameAs] at h

theorem ConstantsApart.append_closing {closing : Stream} (h : ConstantsApart front)
    (hclosing : Closing closing) : ConstantsApart (front ++ closing) := by
  have hconst {k : Const} (hk : .const k ∈ front ++ closing) : .const k ∈ front ∨ k = .none := by
    rcases hclosing with rfl | rfl
    · simpa using hk
    · exact .inl (by simpa using hk)
  intro k k' hk hk' hsame
  rcases hconst hk with hk | rfl
  · rcases hconst hk' with hk' | rfl
    · exact h k k' hk hk' hsame
    · exact eq_none_of_sameAs hsame
  · exact (eq_none_of_none_sameAs hsame).symm

theorem Expr.Callable.run_compiled {e : Expr} (he : e.Callable)
    (hapart : ConstantsApart (e.emit {}).1) (hsize : size (e.emit {}).1 + 1 < 4294967296)
    (fileName : String) :
    ∃ c, compileExpression e fileName = .ok c ∧ ∀ m : Machine, m.RunsAs c e.eval id := by
  obtain ⟨c, hcompiled, hc, haddress⟩ := he.exists_assembled hsize fileName
  have hconsts : ConstantsApart ([.line 1] ++ (e.emit {}).1) := fun k k' hk hk' =>
    hapart k k' (by simpa using hk) (by simpa using hk')
  refine ⟨c, hcompiled, fun m => ?_⟩
  exact m.runsAs hc rfl rfl rfl rfl haddress (hconsts.append_closing (.inr rfl))
    (fun place => (he.realized haddress {}).line 1)

theorem run_compiled_suite {body : List Stmt} (hbody : ∀ s ∈ body, s.Callable)
    (hapart : ConstantsApart (emitSuite body {}).1)
    (hsize : size (emitSuite body {}).1 + 2 < 4294967296) (fileName : String) :
    ∃ c, compileStatements body fileName = .ok c ∧ ∀ m : Machine,
      m.RunsAs c (fun env fuel => execSuite env fuel body) fun _ => .none := by
  obtain ⟨c, hcompiled, hc, haddress⟩ := exists_assembled_suite hbody hsize fileName
  have hconsts := hapart.append_closing (.inl rfl)
  rw [append_cons] at hc hconsts
  refine ⟨c, hcompiled, fun m => ?_⟩
  exact m.runsAs hc rfl rfl rfl rfl haddress hconsts
    fun place =>
      ((realizes_emitSuite haddress hbody {}).bind fun _ _ => realizes_fixed fun _ => rfl).congr
      fun env fuel m => congrFun (bind_pure (execSuite env fuel body)) m

/-- Compiled trees mean what the trees mean.

Wherever a unit carries the instructions of an expression or a suite, they do what the evaluation of
the tree does, in every frame, on top of every stack.  A tuple of constants is folded into one
constant, which has the value that building the tuple gives.  An assembled unit carries its stream.
The units of expressions and of suites end as the evaluations of the trees end, or at a limit. -/
theorem emit_performs_eval :
    (∀ (c : Code) (place : Label → Nat) (ls : Labels) (n : Nat), c.Addressable →
      (∀ e : Expr, e.Callable → Carries c place n (e.emit ls).1 →
        Performs c n (n + size (e.emit ls).1) [] (fun env fuel => e.eval env fuel) fun v => [v]) ∧
      ∀ body : List Stmt, (∀ s ∈ body, s.Callable) → Carries c place n (emitSuite body ls).1 →
        Performs c n (n + size (emitSuite body ls).1) [] (fun env fuel => execSuite env fuel body)
          fun _ => []) ∧
    (∀ (items : List Expr) (cs : List Const), constants? items = some cs →
      (∀ ls, ((Expr.tuple items).emit ls).1 = [.const (.tuple cs)]) ∧
      ∀ env fuel m, (evalAll env fuel items >>= fun vs => pure (.tuple vs)) m =
        .ok (m.store.ofConst (.tuple cs)).1 { m with store := (m.store.ofConst (.tuple cs)).2 }) ∧
    (∀ (fileName : String) (ops : Stream) (header : Header) (c : Code),
      assemble fileName ops header = .ok c → c.Addressable → ConstantsApart ops →
      Carries c (placeIn ops) 0 ops) ∧
    (∀ (e : Expr) (fileName : String), e.Callable → ConstantsApart (e.emit {}).1 →
      size (e.emit {}).1 + 1 < 4294967296 →
      ∃ c, compileExpression e fileName = .ok c ∧ ∀ m : Machine, m.RunsAs c e.eval id) ∧
    (∀ (body : List Stmt) (fileName : String), (∀ s ∈ body, s.Callable) →
      ConstantsApart (emitSuite body {}).1 → size (emitSuite body {}).1 + 2 < 4294967296 →
      ∃ c, compileStatements body fileName = .ok c ∧ ∀ m : Machine,
        m.RunsAs c (fun env fuel => execSuite env fuel body) fun _ => .none) := by
  refine ⟨fun c place ls n hc => ⟨fun e he => he.realized hc ls n,
      fun body hbody => realizes_emitSuite hc hbody ls n⟩, fun items cs hcs => ⟨fun ls => ?_,
      fun env fuel m => ?_⟩,
    fun fileName ops header c h hc hapart => (assemble_eq_ok_iff.1 h).carries hc hapart,
    fun e fileName he hapart hsize => he.run_compiled hapart hsize fileName,
    fun body fileName hbody hapart hsize => run_compiled_suite hbody hapart hsize fileName⟩
  · rw [Expr.emit, hcs]
  · simp only [bind, EStateM.bind, evalAll_of_constants? env fuel m items cs hcs]
    rfl

def greeting : Expr :=
  .ifElse (.compare .lt (.name "x") (.literal (.int 3)))
    (.call (.name "f") [.name "x"] [("k", .tuple [.literal (.int 1), .literal (.str "a")])])
    (.dict [(.literal (.str "z"), .negate (.name "x"))])

/-- The unit of that expression ends as its evaluation ends. -/
theorem greeting_performs_eval :
    greeting.Callable ∧ ConstantsApart (greeting.emit {}).1 ∧
      size (greeting.emit {}).1 + 1 < 4294967296 ∧
      ∃ c, compileExpression greeting "greeting" = .ok c ∧
        ∀ m : Machine, m.RunsAs c greeting.eval id := by
  have hcallable : greeting.Callable := by
    refine .ifElse (.compare _ (.name _) (.literal _))
      (.call (by decide) (by decide) (.name _) (by simp [Expr.Callable.name]) ?_)
      (.dict (by simp [Expr.Callable.literal]) (by simp [Expr.Callable.negate, Expr.Callable.name]))
    rintro p hp
    rw [List.mem_singleton.1 hp]
    exact .tuple (by simp [Expr.Callable.literal])
  have hapart : ConstantsApart (greeting.emit {}).1 := by
    refine constantsApart_of_isData fun k hk => ?_
    have hmem : k = .int 3 ∨ k = .str "k" ∨ k = .tuple [.int 1, .str "a"] ∨ k = .str "z" := by
      simpa [greeting, Expr.emit, emitAll, emitKeywords, emitPairs, constants?, Expr.constant?]
        using hk
    rcases hmem with rfl | rfl | rfl | rfl <;> rfl
  have hsize : size (greeting.emit {}).1 + 1 < 4294967296 := by decide
  exact ⟨hcallable, hapart, hsize,
    emit_performs_eval.2.2.2.1 greeting "greeting" hcallable hapart hsize⟩

end Bytewright
