import Bytewright.Machine.Object

/-!
# Calls

What happens when a value other than a function is called, and how the arguments of a function are
bound to its parameters.
-/

namespace Bytewright

/-! ### Values that are not functions -/

def Store.length? (s : Store) : Value → Option Nat
  | .str t => some t.length
  | .tuple items => some items.length
  | .list r => some (s.list r).length
  | .dict r => some (s.dict r).length
  | .space r => some (s.scope r).length
  | _ => none

def rangeBounds (args : List Value) : Except Failure (Int64 × Int64 × Int64) :=
  match args.mapM Value.asInt? with
  | none => .error .rangeNotInteger
  | some [stop] => .ok (0, stop, 1)
  | some [start, stop] => .ok (start, stop, 1)
  | some [start, stop, step] => .ok (start, stop, step)
  | some _ => .error (.rangeArity args.length)

def Store.callBuiltin (s : Store) (globals : ScopeRef) (b : Builtin) (args : List Value)
    (kwargs : Keywords) : Except Failure (Value × Store) :=
  if b ≠ .nameSpace ∧ !kwargs.isEmpty then .error (.noKeywords b.name)
  else
    match b with
    | .globals => if args.isEmpty then .ok (.space globals, s) else .error (.noArguments b)
    | .len =>
      match args with
      | [v] =>
        match s.length? v with
        | some n => .ok (.int (Int64.ofNat n), s)
        | none => .error (.noLength v.typeName)
      | _ => .error (.lenArity args.length)
    | .range => do
      let (start, stop, step) ← rangeBounds args
      if step = 0 then .error .rangeStepZero
      else .ok (s.newList ((Checked.progression start stop step).map .int))
    | .nameSpace =>
      if args.isEmpty then
        let (r, s) := s.newScope (Bindings.ofList kwargs)
        .ok (.space r, s)
      else .error (.keywordsOnly b)

/-- Performs what a method answers.  Operands that name no place are refused, and so is a store that
would not come to an end. -/
def Store.perform (s : Store) : HookAnswer → List Operand → Except Failure Store
  | .accept, _ => .ok s
  | .refuse, _ => .error .notAssignable
  | .raise kind message, _ => .error (.hookRaised kind message)
  | .store, [.value obj, .name x, .value v] => s.setAttr obj x v
  | .store, [.value obj, .value key, .value v] =>
    if s.setItemSettles obj key then s.setItem obj key v else .error .notAssignable
  | .store, _ => .error .notAssignable

/-- Calls a method of a hook.  The answer is always `none`. -/
def Memory.callMethod (h : Hook) (call : HookCall) (args : List Value) :
    EStateM Failure Memory Value := fun m =>
  match call.operands h.kind args with
  | .error f => .error f m
  | .ok operands =>
    match m.store.perform (h.answer call) operands with
    | .error f => .error f (m.reported h call operands)
    | .ok store => .ok .none { m.reported h call operands with store }

/-- Calls a value that is not a function, in code with the given globals. -/
def Memory.callValue (globals : ScopeRef) (f : Value) (args : List Value)
    (kwargs : Keywords) : EStateM Failure Memory Value := fun m =>
  match f with
  | .builtin b =>
    match m.store.callBuiltin globals b args kwargs with
    | .ok (v, store) => .ok v { m with store }
    | .error e => .error e m
  | .method _ h call =>
    if kwargs.isEmpty then callMethod h call args m
    else .error (.noKeywords (call.fullName h.kind)) m
  | .exceptionType kind =>
    if kwargs.isEmpty then
      let (e, store) := m.store.newException kind args
      .ok (.exception e) { m with store }
    else .error (.noKeywords kind) m
  | _ => .error (.notCallable f.typeName) m

/-! ### Parameters -/

/-- Arguments bound to parameters. -/
structure Binding where
  params : List Value
  rest : List Value
  extra : Keywords

namespace CodeOf

def params (c : Code) : List String := c.varNames.take c.argCount.toNat

/-- The unit takes a surplus of positional arguments. -/
def takesRest (c : Code) : Bool := c.flags.contains .varArgs

/-- The unit takes a surplus of keyword arguments. -/
def takesExtra (c : Code) : Bool := c.flags.contains .varKeywords

/-- The number of locals that hold arguments. -/
def argumentSlots (c : Code) : Nat := c.argCount.toNat + c.takesRest.toNat + c.takesExtra.toNat

end CodeOf

/-- Gives keyword arguments to the slots of named parameters, in the order of the call.  A keyword
that names no parameter joins the surplus, latest first. -/
def bindKeywords (c : Code) : Keywords → List (Option Value) → Keywords →
    Except Failure (List (Option Value) × Keywords)
  | [], slots, extra => .ok (slots, extra.reverse)
  | (key, v) :: more, slots, extra =>
    match c.params.findIdx? (· == key) with
    | some i =>
      match slots[i]? with
      | some (some _) => .error (.multipleValues c.name key)
      | _ => bindKeywords c more (slots.set i (some v)) extra
    | none =>
      if c.takesExtra then bindKeywords c more slots ((key, v) :: extra)
      else .error (.unexpectedKeyword c.name key)

/-- Gives the open slots their defaults, which belong to the last parameters. -/
def bindDefaults (c : Code) : List String → List (Option Value) → List (Option Value) →
    Except Failure (List Value)
  | x :: params, slot :: slots, default :: defaults =>
    match slot.or default with
    | some v => do
      let vs ← bindDefaults c params slots defaults
      return v :: vs
    | none => .error (.missingArgument c.name x)
  | _, _, _ => .ok []

/-- One default for each of `n` parameters, from the right; the first ones have none. -/
def alignDefaults (n : Nat) (defaults : List Value) : List (Option Value) :=
  List.replicate (n - defaults.length) none ++ (defaults.take n).map some

/-- Binds arguments to the parameters of a code unit.  A positional argument goes before a keyword,
and a keyword before a default. -/
def bindArguments (c : Code) (defaults args : List Value) (kwargs : Keywords) :
    Except Failure Binding := do
  let n := c.argCount.toNat
  if n < args.length ∧ !c.takesRest then
    .error (.tooManyArguments c.name n args.length)
  else
    let slots := (args.take n).map some ++ List.replicate (n - args.length) none
    let (slots, extra) ← bindKeywords c kwargs slots []
    let params ← bindDefaults c c.params slots (alignDefaults n defaults)
    return ⟨params, args.drop n, extra⟩

end Bytewright
