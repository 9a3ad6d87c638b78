import Bytewright.Proofs.Inversion.Stream
import Bytewright.Proofs.Tracing.Report

/-!
# What takes the place of a load

The operands of the load, which are on the stack already, become the first arguments of the method,
and the value to store the last one.
-/

namespace Bytewright

open List

def Op.loaded? (load : Op) (stack : List Value) : Option (HookCall × List Operand × List Value) :=
  match load with
  | .name .loadName x => some (.loadName, [.name x], stack)
  | .name .loadAttr x =>
    match stack with
    | obj :: rest => some (.loadAttr, [.value obj, .name x], rest)
    | _ => none
  | .bare .binarySubscr =>
    match stack with
    | key :: obj :: rest => some (.binarySubscr, [.value obj, .value key], rest)
    | _ => none
  | .call .callFunction args kwds =>
    let n := args.toNat + 2 * kwds.toNat
    (stack[n]?).map fun f =>
      (.callFunction, [.value f, .arguments (stack.take n).reverse, .argSpec (argSpec args kwds)],
        stack.drop (n + 1))
  | _ => none

/-- The operation is cut off on this stack. -/
def Op.Stops (f : Frame) (op : Op) (vs : List Value) : Prop :=
  ∀ place p i m, Denotes f.code place p i op →
    ∃ last, execute i p ⟨{ f with stack := vs, ip := p + 1 }, m⟩ =
      .error (.fatal (.underflow p)) ⟨last, m⟩

namespace Op

variable {f : Frame} {vs : List Value}

theorem stops_rotTwo (hvs : vs.length < 2) : (Op.bare .rotTwo).Stops f vs := by
  rintro place p ⟨opcode, arg⟩ m hop
  cases hop
  rcases vs with _ | ⟨b, _ | ⟨a, rest⟩⟩
  · exact ⟨_, rfl⟩
  · exact ⟨_, rfl⟩
  · simp at hvs

theorem stops_rotThree (hvs : vs.length < 3) : (Op.bare .rotThree).Stops f vs := by
  rintro place p ⟨opcode, arg⟩ m hop
  cases hop
  rcases vs with _ | ⟨c, _ | ⟨b, _ | ⟨a, rest⟩⟩⟩
  · exact ⟨_, rfl⟩
  · exact ⟨_, rfl⟩
  · exact ⟨_, rfl⟩
  · simp only [length_cons] at hvs
    omega

theorem stops_buildTuple {n : UInt32} (hvs : vs.length < n.toNat) :
    (Op.count .buildTuple n).Stops f vs := by
  rintro place p i m rfl
  have hpop : Exec.popMany n.toNat ⟨{ f with stack := vs, ip := p + 1 }, m⟩ =
      .error (.fatal (.underflow p)) ⟨{ f with stack := vs, ip := p + 1 }, m⟩ := if_pos hvs
  refine ⟨{ f with stack := vs, ip := p + 1 }, ?_⟩
  simp only [execute, Exec.onCount, Bind.bind, EStateM.bind, hpop]

end Op

theorem Walks.append {f : Frame} {ops ops' : Stream} {vs us ws : List Value} {m k n : Memory}
    (h : Walks f ops vs m us k) (h' : Walks f ops' us k ws n) :
    Walks f (ops ++ ops') vs m ws n := by
  induction h with
  | nil => exact h'
  | cons hop _ ih => exact .cons hop (ih h')

namespace Inversion

/-- The reserved fast locals have the inverter and the value. -/
structure Holds (inverter : Hook) (v : Value) (f : Frame) : Prop where
  inverter : ∀ j : Nat, f.code.varNames[j]? = some inverterSlot →
    f.fast[j]? = some (some (.hook inverter))
  value : ∀ j : Nat, f.code.varNames[j]? = some valueSlot → f.fast[j]? = some (some v)

variable {inverter : Hook} {v : Value} {f : Frame} {vs rest : List Value} {m : Memory}
  {alone : Bool} {load : Op} {store : Stream} {call : HookCall} {operands : List Operand}

theorem walks_method (hf : Holds inverter v f) (hkind : inverter.kind = .inverter)
    (call : HookCall) (hcall : call ∈ HookKind.inverter.calls) :
    Walks f (method call.name) vs m (.method m.store.nextId inverter call :: vs) m.aged := by
  refine .cons (Op.leads_loadFast hf.inverter) (.cons (Op.leads_loadAttr ?_) (.nil _ _))
  rw [hkind]
  revert hcall
  revert call
  decide

theorem walks_value (hf : Holds inverter v f) : Walks f [value] vs m (v :: vs) m :=
  .cons (Op.leads_loadFast hf.value) (.nil _ _)

theorem exists_walks (hf : Holds inverter v f) (hkind : inverter.kind = .inverter)
    (hstore : replace? alone load = some store)
    (hload : load.loaded? vs = some (call, operands, rest)) :
    ∃ (body : Stream) (n : UInt8) (args : List Value), store = body ++ [plainCall n] ∧
      n.toNat = args.length ∧
      call.operands .inverter args = .ok (operands ++ [.value v]) ∧
      Walks f body vs m (args.reverse ++ .method m.store.nextId inverter call :: rest) m.aged := by
  unfold replace? at hstore
  split at hstore
  · next x =>
    split at hstore
    · cases hstore
      cases hload
      refine ⟨method "load_name" ++ ([.const (.str x)] ++ [value]), 2, [.str x, v], rfl, rfl, rfl,
        ?_⟩
      exact (walks_method hf hkind .loadName (by decide)).append <|
        .append (.cons (Op.leads_const rfl) (.nil _ _)) (walks_value hf)
    · cases hstore
  · next x =>
    cases hstore
    rcases vs with _ | ⟨obj, vs⟩
    · cases hload
    cases hload
    refine ⟨method "load_attr" ++ ([.bare .rotTwo, .const (.str x)] ++ [value]), 3,
      [obj, .str x, v], rfl, rfl, rfl, ?_⟩
    exact (walks_method hf hkind .loadAttr (by decide)).append <|
      .append (.cons Op.leads_rotTwo (.cons (Op.leads_const rfl) (.nil _ _))) (walks_value hf)
  · next args kwds =>
    cases hstore
    obtain ⟨func, hfunc, hrest⟩ := Option.map_eq_some_iff.1 hload
    cases hrest
    have hcount : (flatCount args kwds).toNat =
        (vs.take (args.toNat + 2 * kwds.toNat)).reverse.length := by
      have hlt := (List.getElem?_eq_some_iff.1 hfunc).1
      rw [toNat_flatCount, length_reverse, length_take]
      omega
    have hsplit : vs = (vs.take (args.toNat + 2 * kwds.toNat)).reverse.reverse ++
        func :: vs.drop (args.toNat + 2 * kwds.toNat + 1) := by
      obtain ⟨_, rfl⟩ := List.getElem?_eq_some_iff.1 hfunc
      rw [reverse_reverse, ← drop_eq_getElem_cons, take_append_drop]
    generalize (vs.take (args.toNat + 2 * kwds.toNat)).reverse = arguments at hcount hsplit ⊢
    generalize vs.drop (args.toNat + 2 * kwds.toNat + 1) = rest at hsplit ⊢
    refine ⟨[.count .buildTuple (flatCount args kwds)] ++ (method "call_function" ++
      ([.bare .rotThree, .const (argSpecConst args kwds)] ++ [value])), 4,
      [func, .tuple arguments, .int (Int64.ofNat (argSpec args kwds).toNat), v], rfl, rfl, ?_, ?_⟩
    · show checkOperands [.value, .arguments, .argSpec, .value] _ = _
      simp only [checkOperands, check_argSpec]
      rfl
    · rw [hsplit]
      exact .append (.cons (Op.leads_buildTuple hcount) (.nil _ _)) <|
        (walks_method hf hkind .callFunction (by decide)).append <|
          .append (.cons Op.leads_rotThree (.cons (Op.leads_const rfl) (.nil _ _))) (walks_value hf)
  · cases hstore
    rcases vs with _ | ⟨key, _ | ⟨obj, vs⟩⟩
    · cases hload
    · cases hload
    cases hload
    refine ⟨method "binary_subscr" ++ ([.bare .rotThree] ++ [value]), 3, [obj, key, v], rfl, rfl,
      rfl, ?_⟩
    exact (walks_method hf hkind .binarySubscr (by decide)).append <|
      .append (.cons Op.leads_rotThree (.nil _ _)) (walks_value hf)
  · cases hstore

theorem execute_call_of_failure (f : Frame) (rest : List Value) (m : Memory) (id : Nat) {n : UInt8}
    {args : List Value} {failure : Failure} (hn : n.toNat = args.length)
    (hoperands : call.operands inverter.kind args = .ok operands)
    (hperform : m.store.perform (inverter.answer call) operands = .error failure)
    {place : Label → Nat} {p : Nat} {i : Instruction}
    (hi : Denotes f.code place p i (plainCall n)) :
    execute i p ⟨{ f with
        stack := args.reverse ++ .method id inverter call :: rest, ip := p + 1 }, m⟩ =
      .error (.raise (m.store.failed failure).1 [] false)
        ⟨{ f with stack := rest, ip := p + 1 },
          { m.reported inverter call operands with store := (m.store.failed failure).2 }⟩ := by
  have hmethod : Memory.callMethod inverter call args m =
      .error failure (m.reported inverter call operands) := by
    simp only [Memory.callMethod, hoperands, hperform]
  rw [Op.execute_plainCall hn hi, hmethod, ← m.store_reported inverter call operands]
  rfl

theorem exists_stops (hf : Holds inverter v f) (hkind : inverter.kind = .inverter)
    (hstore : replace? alone load = some store) (hload : load.loaded? vs = none) :
    ∃ (body : Stream) (op : Op) (tail : Stream) (ws : List Value) (n : Memory),
      store = body ++ op :: tail ∧ (n = m ∨ n = m.aged) ∧ Walks f body vs m ws n ∧
        op.Stops f ws := by
  unfold replace? at hstore
  split at hstore
  · cases hload
  · cases hstore
    rcases vs with _ | ⟨obj, vs⟩
    · exact ⟨_, _, _, _, _, rfl, .inr rfl, walks_method hf hkind .loadAttr (by decide),
        Op.stops_rotTwo (by simp)⟩
    · cases hload
  · next args kwds =>
    cases hstore
    have hlength : vs.length ≤ args.toNat + 2 * kwds.toNat := by
      rw [Op.loaded?, Option.map_eq_none_iff, getElem?_eq_none_iff] at hload
      exact hload
    rcases Nat.lt_or_eq_of_le hlength with hlt | heq
    · exact ⟨[], _, _, vs, m, rfl, .inl rfl, .nil _ _,
        Op.stops_buildTuple (by rwa [toNat_flatCount])⟩
    · -- all arguments are there, but not what is called
      have hcount : (flatCount args kwds).toNat = vs.reverse.length := by
        rw [toNat_flatCount, length_reverse, heq]
      have hbuild : (Op.count .buildTuple (flatCount args kwds)).Leads f (vs.reverse.reverse ++ [])
          m [.tuple vs.reverse] m := Op.leads_buildTuple hcount
      rw [reverse_reverse, append_nil] at hbuild
      exact ⟨_, _, _, _, _, rfl, .inr rfl,
        .cons hbuild (walks_method hf hkind .callFunction (by decide)), Op.stops_rotThree (by simp)⟩
  · cases hstore
    refine ⟨_, _, _, _, _, rfl, .inr rfl, walks_method hf hkind .binarySubscr (by decide),
      Op.stops_rotThree ?_⟩
    rcases vs with _ | ⟨key, _ | ⟨obj, vs⟩⟩
    · simp
    · simp
    · cases hload
  · cases hstore

end Inversion

end Bytewright
