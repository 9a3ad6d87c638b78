import Bytewright.Proofs.Tracing.Stream

/-!
# Reports

A report leaves the stack as it was.  All that remains of it is an event, if the tracer records, and
one identity that was taken for the method.
-/

namespace Bytewright

open Exec List

/-! ### What is reported -/

def Instruction.report? (c : Code) (i : Instruction) (stack : List Value) :
    Option (HookCall × List Operand) :=
  match i.opcode with
  | .name .loadAttr =>
    match stack, c.names[i.arg.toNat]? with
    | v :: _, some x => some (.loadAttr, [.value v, .name x])
    | _, _ => none
  | .call .callFunction =>
    let (args, kwds) := splitArgSpec i.arg
    let n := args.toNat + 2 * kwds.toNat
    (stack[n]?).map fun f =>
      (.callFunction, [.value f, .arguments (stack.take n).reverse, .argSpec i.arg])
  | .bare .binarySubscr =>
    match stack with
    | key :: obj :: _ => some (.binarySubscr, [.value obj, .value key])
    | _ => none
  | .bare .getIter => stack.head?.map fun v => (.getIter, [.value v])
  | .bare .returnValue => stack.head?.map fun v => (.returnValue, [.value v])
  | _ => none

def Memory.aged (m : Memory) : Memory := { m with store := m.store.fresh.2 }

@[simp] theorem Memory.store_reported (h : Hook) (call : HookCall) (operands : List Operand)
    (m : Memory) : (m.reported h call operands).store = m.store := by
  unfold Memory.reported
  split_ifs <;> rfl

/-! ### Stretches of operations -/

def Op.Leads (f : Frame) (op : Op) (vs : List Value) (m : Memory) (ws : List Value) (n : Memory) :
    Prop :=
  ∀ place p i, Denotes f.code place p i op →
    execute i p ⟨{ f with stack := vs, ip := p + 1 }, m⟩ =
      .ok .next ⟨{ f with stack := ws, ip := p + 1 }, n⟩

inductive Walks (f : Frame) : Stream → List Value → Memory → List Value → Memory → Prop
  | nil (vs : List Value) (m : Memory) : Walks f [] vs m vs m
  | cons {op : Op} {ops : Stream} {vs us ws : List Value} {m k n : Memory}
      (hop : op.Leads f vs m us k) (hops : Walks f ops us k ws n) : Walks f (op :: ops) vs m ws n

variable {i : Instruction} {call : HookCall} {n : UInt8} {id p : Nat} {operands : List Operand}
  {place : Label → Nat}

theorem Walks.proceeds {f : Frame} {ops : Stream} {vs ws : List Value} {m n : Memory}
    (h : Walks f ops vs m ws n) (hcarries : Carries f.code place p ops)
    (hreal : ∀ op ∈ ops, op.isReal = true) (callers : List Frame) (steps : Nat) :
    Run.Proceeds ⟨{ f with stack := vs, ip := p }, callers, steps, m⟩
      ⟨{ f with stack := ws, ip := p + ops.length }, callers, steps + ops.length, n⟩ := by
  induction h generalizing p steps with
  | nil vs m => exact .refl
  | @cons op ops vs us ws m k n hop _ ih =>
    obtain ⟨⟨i, hi, hdenotes⟩, hrest⟩ :=
      (carries_cons_of_isReal (hreal op mem_cons_self)).1 hcarries
    have hsteps := ih hrest (fun o ho => hreal o (mem_cons_of_mem _ ho)) (steps + 1)
    have hstep : Run.proceed ⟨{ f with stack := vs, ip := p }, callers, steps, m⟩ =
        .running ⟨{ f with stack := us, ip := p + 1 }, callers, steps + 1, k⟩ :=
      Run.proceed_of_next (f := { f with stack := vs, ip := p }) hi (hop place p i hdenotes)
    refine .head hstep ?_
    rwa [length_cons, Nat.add_comm ops.length, ← Nat.add_assoc, ← Nat.add_assoc]

namespace Op

variable {f : Frame} {v a b c : Value} {vs rest : List Value} {m : Memory} {h : Hook}

theorem leads_popTop : (Op.bare .popTop).Leads f (v :: rest) m rest m := by
  rintro place p ⟨opcode, arg⟩ hop
  cases hop
  rfl

theorem leads_dupTop : (Op.bare .dupTop).Leads f (v :: rest) m (v :: v :: rest) m := by
  rintro place p ⟨opcode, arg⟩ hop
  cases hop
  rfl

theorem leads_dupTopTwo :
    (Op.bare .dupTopTwo).Leads f (b :: a :: rest) m (b :: a :: b :: a :: rest) m := by
  rintro place p ⟨opcode, arg⟩ hop
  cases hop
  have hpop : popMany 2 ⟨{ f with stack := b :: a :: rest, ip := p + 1 }, m⟩ =
      .ok [a, b] ⟨{ f with stack := rest, ip := p + 1 }, m⟩ :=
    popMany_reverse (f := { f with ip := p + 1 }) [a, b] rest rfl
  simp only [execute, onBare, Bind.bind, EStateM.bind, hpop]
  rfl

theorem leads_rotTwo : (Op.bare .rotTwo).Leads f (b :: a :: rest) m (a :: b :: rest) m := by
  rintro place p ⟨opcode, arg⟩ hop
  cases hop
  rfl

theorem leads_rotThree :
    (Op.bare .rotThree).Leads f (c :: b :: a :: rest) m (b :: a :: c :: rest) m := by
  rintro place p ⟨opcode, arg⟩ hop
  cases hop
  rfl

theorem leads_const {k : Const} (hk : k.isLabel = true) :
    (Op.const k).Leads f rest m ((m.store.ofConst k).1 :: rest) m := by
  rintro place p ⟨opcode, arg⟩ ⟨hop, hconst⟩
  cases hop
  have hconst' : f.code.consts[arg.toNat]? = some k := hconst
  simp only [execute, Bind.bind, EStateM.bind, frame, hconst', store]
  cases k with
  | str | int => rfl
  | _ => cases hk

theorem leads_buildTuple {n : UInt32} (hn : n.toNat = vs.length) :
    (Op.count .buildTuple n).Leads f (vs.reverse ++ rest) m (.tuple vs :: rest) m := by
  rintro place p i rfl
  have hpop := popMany_reverse (f := { f with ip := p + 1 }) (m := m) vs rest hn
  simp only [execute, onCount, Bind.bind, EStateM.bind, hpop]
  rfl

theorem leads_unpackSequence {n : UInt32} (hn : n.toNat = vs.length) :
    (Op.count .unpackSequence n).Leads f (.tuple vs :: rest) m (vs ++ rest) m := by
  rintro place p i rfl
  simp only [execute, onCount, Bind.bind, EStateM.bind, pop, store, Store.items?, if_pos hn.symm]
  rfl

theorem leads_loadAttr (hcall : h.kind.call? call.name = some call) :
    (Op.name .loadAttr call.name).Leads f (.hook h :: rest) m
      (.method m.store.nextId h call :: rest) m.aged := by
  rintro place p ⟨opcode, arg⟩ ⟨hop, hname⟩
  cases hop
  have hattr : m.store.attr (.hook h) call.name = .ok (m.store.newMethod h call) := by
    simp only [Store.attr, hcall, Option.map_some]
  have hname' : (f.code.pool .names)[arg.toNat]? = some call.name := hname
  simp only [execute, Bind.bind, EStateM.bind, frame, NameOp.pool, hname', onName, pop,
    store, hattr]
  rfl

theorem leads_loadFast {x : String}
    (hx : ∀ j : Nat, f.code.varNames[j]? = some x → f.fast[j]? = some (some v)) :
    (Op.name .loadFast x).Leads f rest m (v :: rest) m := by
  rintro place p ⟨opcode, arg⟩ ⟨hop, hname⟩
  cases hop
  have hname' : (f.code.pool .locals)[arg.toNat]? = some x := hname
  simp only [execute, Bind.bind, EStateM.bind, frame, NameOp.pool, hname', onName, hx _ hname']
  rfl

theorem execute_plainCall (hn : n.toNat = vs.length) (hi : Denotes f.code place p i (plainCall n)) :
    execute i p ⟨{ f with stack := vs.reverse ++ .method id h call :: rest, ip := p + 1 }, m⟩ =
      match Memory.callMethod h call vs m with
      | .ok v k => .ok .next ⟨{ f with stack := v :: rest, ip := p + 1 }, k⟩
      | .error e k => fail e ⟨{ f with stack := rest, ip := p + 1 }, k⟩ := by
  have hnone : (0 : UInt8).toNat = ([] : Keywords).length := rfl
  have hcall : execute i p ⟨{ f with
        stack := vs.reverse ++ .method id h call :: rest, ip := p + 1 }, m⟩ =
      callWith (.method id h call) vs [] ⟨{ f with stack := rest, ip := p + 1 }, m⟩ :=
    execute_callFunction (f := { f with ip := p + 1 }) hi.1 hi.2 hn hnone rest
  rw [hcall]
  show (match Memory.callValue f.globals (.method id h call) vs [] m with
    | .ok v memory => .ok Signal.next ⟨Frame.push _ v, memory⟩
    | .error e memory => fail e _ : EStateM.Result Stop Moment Signal) = _
  simp only [Memory.callValue, isEmpty_nil, if_true]
  rfl

theorem leads_plainCall (hn : n.toNat = vs.length)
    (hoperands : call.operands h.kind vs = .ok operands) {s : Store}
    (hperform : m.store.perform (h.answer call) operands = .ok s) :
    (plainCall n).Leads f (vs.reverse ++ .method id h call :: rest) m (.none :: rest)
      { m.reported h call operands with store := s } := by
  intro place p i hi
  have hmethod : Memory.callMethod h call vs m =
      .ok .none { m.reported h call operands with store := s } := by
    simp only [Memory.callMethod, hoperands, hperform]
  rw [execute_plainCall hn hi, hmethod]

end Op

theorem check_argSpec (args kwds : UInt8) :
    OperandKind.check .argSpec (.int (Int64.ofNat (argSpec args kwds).toNat)) =
      .ok (.argSpec (argSpec args kwds)) := by
  have hlt := (argSpec args kwds).toNat_lt
  have hint : (Int64.ofNat (argSpec args kwds).toNat).toInt = (argSpec args kwds).toNat :=
    Int64.toInt_ofNat_of_lt (by omega)
  simp only [OperandKind.check, Value.asInt?, hint]
  rw [if_pos (by omega), Int.toNat_natCast, UInt32.ofNat_toNat]

/-! ### The reports of operations -/

namespace Tracing

def Equipped (h : Hook) (f : Frame) : Prop :=
  ∀ j : Nat, f.code.varNames[j]? = some slot → f.fast[j]? = some (some (.hook h))

/-- A tracer whose methods succeed. -/
structure Calm (h : Hook) : Prop where
  kind_eq : h.kind = .tracer
  accepts : ∀ call ∈ HookKind.tracer.calls, h.answer call = .accept

variable {h : Hook} {f : Frame} {v a b : Value} {vs rest : List Value} {m : Memory} {c : Code}
  {op : Op}

theorem leads_receiver (hf : Equipped h f) : (receiver false).Leads f rest m (.hook h :: rest) m :=
  Op.leads_loadFast hf

section

variable (hh : Calm h)
include hh

theorem Calm.leads_method (call : HookCall) (hcall : call ∈ HookKind.tracer.calls) :
    (Op.name .loadAttr call.name).Leads f (.hook h :: rest) m
      (.method m.store.nextId h call :: rest) m.aged := by
  refine Op.leads_loadAttr ?_
  rw [hh.kind_eq]
  revert hcall
  revert call
  decide

theorem Calm.leads_call (call : HookCall) (hcall : call ∈ HookKind.tracer.calls)
    (vs : List Value) (hn : n.toNat = vs.length)
    (hoperands : call.operands .tracer vs = .ok operands) :
    (plainCall n).Leads f (vs.reverse ++ .method id h call :: rest) m (.none :: rest)
      (m.reported h call operands) := by
  have hperform : m.store.perform (h.answer call) operands =
      .ok (m.reported h call operands).store := by
    rw [hh.accepts call hcall, Memory.store_reported]
    rfl
  exact Op.leads_plainCall hn (hh.kind_eq ▸ hoperands) hperform

variable (hf : Equipped h f)
include hf

theorem walks_reportTop (call : HookCall) (hcall : call ∈ HookKind.tracer.calls)
    (hoperands : call.operands .tracer [v] = .ok [.value v]) :
    Walks f (reportTop (receiver false) call.name) (v :: rest) m (v :: rest)
      (m.aged.reported h call [.value v]) :=
  .cons Op.leads_dupTop <| .cons (leads_receiver hf) <| .cons (hh.leads_method call hcall) <|
    .cons Op.leads_rotTwo <| .cons (hh.leads_call call hcall [v] rfl hoperands) <|
      .cons Op.leads_popTop (.nil _ _)

theorem walks_loadAttr (x : String) : Walks f (report (.name .loadAttr x)) (v :: rest) m (v :: rest)
      (m.aged.reported h .loadAttr [.value v, .name x]) :=
  .cons Op.leads_dupTop <| .cons (leads_receiver hf) <|
    .cons (hh.leads_method .loadAttr (by decide)) <| .cons Op.leads_rotTwo <|
      .cons (Op.leads_const rfl) <|
        .cons (hh.leads_call .loadAttr (by decide) [v, .str x] rfl rfl) <|
          .cons Op.leads_popTop (.nil _ _)

theorem walks_binarySubscr :
    Walks f (report (.bare .binarySubscr)) (b :: a :: rest) m (b :: a :: rest)
      (m.aged.reported h .binarySubscr [.value a, .value b]) :=
  .cons Op.leads_dupTopTwo <| .cons (leads_receiver hf) <|
    .cons (hh.leads_method .binarySubscr (by decide)) <| .cons Op.leads_rotThree <|
      .cons (hh.leads_call .binarySubscr (by decide) [a, b] rfl rfl) <|
        .cons Op.leads_popTop (.nil _ _)

theorem walks_callFunction {args kwds : UInt8} (v : Value) (vs rest : List Value)
    (hn : vs.length = args.toNat + 2 * kwds.toNat) :
    Walks f (report (.call .callFunction args kwds)) (vs.reverse ++ v :: rest) m
      (vs.reverse ++ v :: rest)
      (m.aged.reported h .callFunction [.value v, .arguments vs,
        .argSpec (argSpec args kwds)]) := by
  have hcount : (flatCount args kwds).toNat = vs.length := (toNat_flatCount args kwds).trans hn.symm
  have hoperands : HookCall.operands .tracer .callFunction
      [v, .tuple vs, .int (Int64.ofNat (argSpec args kwds).toNat)] =
        .ok [.value v, .arguments vs, .argSpec (argSpec args kwds)] := by
    show checkOperands [.value, .arguments, .argSpec] _ = _
    simp only [checkOperands, check_argSpec]
    rfl
  refine .cons (Op.leads_buildTuple hcount) <| .cons Op.leads_dupTopTwo <|
    .cons (leads_receiver hf) <| .cons (hh.leads_method .callFunction (by decide)) <|
      .cons Op.leads_rotThree <| .cons (Op.leads_const rfl) <|
        .cons (hh.leads_call .callFunction (by decide) [v, .tuple vs, .int _] rfl
          hoperands) <| .cons Op.leads_popTop <| .cons (Op.leads_unpackSequence hcount) <| ?_
  -- the first time around the arguments come back in the opposite order
  have hagain : (flatCount args kwds).toNat = vs.reverse.length := by rw [hcount, length_reverse]
  have hbuild (k : Memory) : (Op.count .buildTuple (flatCount args kwds)).Leads f
    (vs ++ v :: rest) k
      (.tuple vs.reverse :: v :: rest) k := by
    have hreversed : (Op.count .buildTuple (flatCount args kwds)).Leads f
        (vs.reverse.reverse ++ v :: rest) k (.tuple vs.reverse :: v :: rest) k :=
      Op.leads_buildTuple hagain
    rwa [reverse_reverse] at hreversed
  exact .cons (hbuild _) (.cons (Op.leads_unpackSequence hagain) (.nil _ _))

theorem walks_report (hop : Spells c op i) (hreport : i.report? c vs = some (call, operands)) :
    Walks f (report op) vs m vs (m.aged.reported h call operands) := by
  obtain ⟨opcode, arg⟩ := i
  obtain ⟨hopcode, hname, hcall⟩ := hop
  cases op with
  | line | mark => cases hopcode
  | name o x =>
    cases hopcode
    have hx : (c.pool o.pool)[arg.toNat]? = some x := hname o x rfl
    cases o with
    | loadAttr =>
      change c.names[arg.toNat]? = some x at hx
      cases vs with
      | nil => simp [Instruction.report?] at hreport
      | cons v rest =>
        simp only [Instruction.report?, hx, Option.some.injEq, Prod.mk.injEq] at hreport
        obtain ⟨rfl, rfl⟩ := hreport
        exact walks_loadAttr hh hf x
    | _ => cases hreport
  | call o args kwds =>
    cases hopcode
    have harg : arg = argSpec args kwds := hcall o args kwds rfl
    cases o with
    | callFunction =>
      simp only [Instruction.report?, harg, splitArgSpec_argSpec, Option.map_eq_some_iff,
        Prod.mk.injEq] at hreport
      obtain ⟨v, hv, rfl, rfl⟩ := hreport
      have hlt := (List.getElem?_eq_some_iff.1 hv).1
      have hsplit : vs = (vs.take (args.toNat + 2 * kwds.toNat)).reverse.reverse ++
          v :: vs.drop (args.toNat + 2 * kwds.toNat + 1) := by
        obtain ⟨_, rfl⟩ := List.getElem?_eq_some_iff.1 hv
        rw [reverse_reverse, ← drop_eq_getElem_cons, take_append_drop]
      have hlength : (vs.take (args.toNat + 2 * kwds.toNat)).reverse.length =
          args.toNat + 2 * kwds.toNat := by
        rw [length_reverse, length_take]
        omega
      have hwalks := walks_callFunction (m := m) hh hf v _
        (vs.drop (args.toNat + 2 * kwds.toNat + 1)) hlength
      rwa [← hsplit] at hwalks
    | callFunctionVar => cases hreport
  | bare o =>
    cases hopcode
    cases o with
    | binarySubscr =>
      rcases vs with _ | ⟨b, _ | ⟨a, rest⟩⟩
      · cases hreport
      · cases hreport
      · cases hreport
        exact walks_binarySubscr hh hf
    | getIter =>
      cases vs with
      | nil => cases hreport
      | cons v rest =>
        cases hreport
        exact walks_reportTop hh hf .getIter (by decide) rfl
    | returnValue =>
      cases vs with
      | nil => cases hreport
      | cons v rest =>
        cases hreport
        exact walks_reportTop hh hf .returnValue (by decide) rfl
    | _ => cases hreport
  | _ =>
    cases hopcode
    cases hreport

end

def Fails (i : Instruction) (f : Frame) (vs : List Value) : Prop :=
  ∀ (p : Nat) (m : Memory), ∃ cause last,
    execute i p ⟨{ f with stack := vs, ip := p + 1 }, m⟩ = .error (.fatal cause) ⟨last, m⟩

theorem fails_dupTop (hi : i.opcode = .bare .dupTop) (f : Frame) : Fails i f [] := by
  intro p m
  obtain ⟨opcode, arg⟩ := i
  cases hi
  exact ⟨_, _, rfl⟩

theorem fails_dupTopTwo (hi : i.opcode = .bare .dupTopTwo) (f : Frame) (hvs : vs.length < 2) :
    Fails i f vs := by
  intro p m
  obtain ⟨opcode, arg⟩ := i
  cases hi
  have hpop : popMany 2 ⟨{ f with stack := vs, ip := p + 1 }, m⟩ =
      .error (.fatal (.underflow p)) ⟨{ f with stack := vs, ip := p + 1 }, m⟩ := if_pos hvs
  refine ⟨.underflow p, { f with stack := vs, ip := p + 1 }, ?_⟩
  simp only [execute, onBare, Bind.bind, EStateM.bind, hpop]

theorem eq_nil_or_fails (hop : Spells c op i) (hreport : i.report? c vs = none)
    (hcalls : ∀ args kwds, op = .call .callFunction args kwds →
      args.toNat + 2 * kwds.toNat < vs.length) :
    report op = [] ∨ (∀ f : Frame, f.code = c → Fails i f vs) ∧
      ∃ o tail, report op = o :: tail ∧
        ∀ (f : Frame) place p i', Denotes f.code place p i' o → Fails i' f vs := by
  obtain ⟨opcode, arg⟩ := i
  obtain ⟨hopcode, hname, hcall⟩ := hop
  cases op with
  | name o x =>
    cases hopcode
    have hx : (c.pool o.pool)[arg.toNat]? = some x := hname o x rfl
    cases o with
    | loadAttr =>
      change c.names[arg.toNat]? = some x at hx
      cases vs with
      | cons v rest => simp [Instruction.report?, hx] at hreport
      | nil =>
        refine .inr ⟨?_, _, _, rfl, fun f place p i' hi' => fails_dupTop hi' f⟩
        rintro f rfl p m
        have hx' : (f.code.pool .names)[arg.toNat]? = some x := hx
        refine ⟨.underflow p, { f with stack := [], ip := p + 1 }, ?_⟩
        simp only [execute, Bind.bind, EStateM.bind, frame, NameOp.pool, hx', onName, pop]
        rfl
    | _ => exact .inl rfl
  | call o args kwds =>
    cases hopcode
    cases o with
    | callFunction =>
      have hlt := hcalls args kwds rfl
      have harg : arg = argSpec args kwds := hcall _ args kwds rfl
      simp [Instruction.report?, harg, splitArgSpec_argSpec, hlt] at hreport
    | callFunctionVar => exact .inl rfl
  | bare o =>
    cases hopcode
    cases o with
    | binarySubscr =>
      have hlt : vs.length < 2 := by
        rcases vs with _ | ⟨b, _ | ⟨a, rest⟩⟩
        · exact Nat.zero_lt_two
        · exact Nat.one_lt_two
        · cases hreport
      refine .inr ⟨fun f _ p m => ?_, _, _, rfl, fun f place p i' hi' => fails_dupTopTwo hi' f hlt⟩
      rcases vs with _ | ⟨b, _ | ⟨a, rest⟩⟩
      · exact ⟨_, _, rfl⟩
      · exact ⟨_, _, rfl⟩
      · cases hreport
    | getIter | returnValue =>
      cases vs with
      | cons v rest => cases hreport
      | nil =>
        exact .inr ⟨fun f _ p m => ⟨_, _, rfl⟩, _, _, rfl, fun f place p i' hi' =>
          fails_dupTop hi' f⟩
    | _ => exact .inl rfl
  | _ => exact .inl rfl

end Tracing

end Bytewright
