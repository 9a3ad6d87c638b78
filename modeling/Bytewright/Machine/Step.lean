import Bytewright.Machine.Frame

/-!
# Instructions

What each instruction does.  The instruction pointer has already been moved past the instruction.
Whatever an instruction takes from the stack it has taken when it raises.
-/

namespace Bytewright

/-- How a run goes on after an instruction. -/
inductive Signal where
  | next
  | ret (v : Value)
  | call (callee : Frame)

namespace Exec

/-! ### Names -/

/-- The value of a name that the machine provides. -/
def builtin? (x : String) : Option Value :=
  match [Builtin.globals, .len, .range, .nameSpace].find? (·.name == x) with
  | some b => some (.builtin b)
  | none => if exceptionKinds.contains x then some (.exceptionType x) else none

def lookupGlobal (s : Store) (globals : ScopeRef) (x : String) : Except Failure Value :=
  match ((s.scope globals).get? x).or (builtin? x) with
  | some v => .ok v
  | none => .error (.unbound x)

def deleteFrom (r : ScopeRef) (x : String) : Exec Unit := do
  let s ← store
  match (s.scope r).get? x with
  | some _ => setStore (s.setScope r ((s.scope r).erase x))
  | none => fail (.unbound x)

/-- The instructions on the name `x`, which has position `i` in its pool. -/
def onName (op : NameOp) (i : Nat) (x : String) : Exec Unit := do
  let f ← frame
  match op with
  | .loadFast =>
    match f.fast[i]? with
    | some (some v) => push v
    | _ => fail (.unboundLocal x)
  | .storeFast =>
    let v ← pop
    let f ← frame
    setFrame { f with fast := f.fast.set i (some v) }
  | .deleteFast =>
    match f.fast[i]? with
    | some (some _) => setFrame { f with fast := f.fast.set i none }
    | _ => fail (.unboundLocal x)
  | .loadName =>
    let s ← store
    match (s.scope f.names).get? x with
    | some v => push v
    | none => push (← orFail (lookupGlobal s f.globals x))
  | .storeName =>
    let v ← pop
    setStore ((← store).bindName f.names x v)
  | .deleteName => deleteFrom f.names x
  | .loadGlobal => push (← orFail (lookupGlobal (← store) f.globals x))
  | .storeGlobal =>
    let v ← pop
    setStore ((← store).bindName f.globals x v)
  | .deleteGlobal => deleteFrom f.globals x
  | .loadDeref =>
    match f.closure[i]? with
    | some v => push v
    | none => fail (.unboundFree x)
  | .loadAttr =>
    let obj ← pop
    push (← orFailWith ((← store).attr obj x))
  | .storeAttr =>
    let obj ← pop
    let v ← pop
    setStore (← orFail ((← store).setAttr obj x v))

/-! ### Jumps and blocks -/

/-- Continues at a target, which may be just past the last instruction. -/
def jumpTo (index : Nat) (target : Option Nat) : Exec Unit := do
  let f ← frame
  match target with
  | some t => if t ≤ f.code.code.length then setFrame { f with ip := t } else fatal (.badJump index)
  | none => fatal (.badJump index)

def enterBlock (kind : BlockKind) (index : Nat) (target : Option Nat) : Exec Unit := do
  let f ← frame
  match target with
  | some handler => setFrame { f with blocks := ⟨kind, handler, f.stack.length⟩ :: f.blocks }
  | none => fatal (.badBlock index)

def onJump (op : JumpOp) (index : Nat) (target : Option Nat) : Exec Unit := do
  match op with
  | .jumpForward | .jumpAbsolute => jumpTo index target
  | .popJumpIfFalse => if ← popCondition then pure () else jumpTo index target
  | .popJumpIfTrue => if ← popCondition then jumpTo index target else pure ()
  | .setupExcept => enterBlock .except index target
  | .setupLoop => enterBlock .loop index target
  | .forIter =>
    let f ← frame
    match f.stack with
    | .iterator r :: stack =>
      let s ← store
      match s.iter r with
      | v :: rest =>
        setStore (s.setIter r rest)
        push v
      | [] =>
        setFrame { f with stack }
        jumpTo index target
    | _ => fatal (.noIterator index)

/-- An iterator over what a sequence holds now; an iterator stands for itself. -/
def iterate (v : Value) : Exec Value := do
  match v with
  | .iterator _ => return v
  | _ =>
    let s ← store
    match s.items? v with
    | some items =>
      let (i, s) := s.newIter items
      setStore s
      return i
    | none => fail (.notIterable v.typeName)

/-! ### Instructions without argument -/

/-- The instructions without argument, at an index. -/
def onBare (op : BareOp) (index : Nat) : Exec Signal := do
  match op with
  | .popTop =>
    let _ ← pop
    return .next
  | .rotTwo =>
    let b ← pop
    let a ← pop
    push b
    push a
    return .next
  | .rotThree =>
    let c ← pop
    let b ← pop
    let a ← pop
    push c
    push a
    push b
    return .next
  | .dupTop =>
    let a ← pop
    push a
    push a
    return .next
  | .dupTopTwo =>
    match ← popMany 2 with
    | [a, b] =>
      push a
      push b
      push a
      push b
      return .next
    | _ => return .next
  | .storeMap =>
    let key ← pop
    let v ← pop
    match (← frame).stack with
    | .dict r :: _ =>
      let s ← store
      settle (s.pairSettles r key)
      setStore (s.setPair r key v)
      return .next
    | _ => fatal (.noDict index)
  | .binarySubscr =>
    let key ← pop
    let obj ← pop
    let s ← store
    settle (s.itemSettles obj key)
    push (← orFail (s.item obj key))
    return .next
  | .storeSubscr =>
    let key ← pop
    let obj ← pop
    let v ← pop
    let s ← store
    settle (s.setItemSettles obj key)
    setStore (← orFail (s.setItem obj key v))
    return .next
  | .unaryNot =>
    let b ← popCondition
    push (.bool !b)
    return .next
  | .unaryNegative =>
    let v ← pop
    push (← orFail v.negate)
    return .next
  | .popBlock =>
    let f ← frame
    match f.blocks with
    | b :: blocks =>
      setFrame { f with blocks, stack := truncate b.level f.stack }
      return .next
    | [] => fatal (.noBlock index)
  | .getIter =>
    let v ← pop
    push (← iterate v)
    return .next
  | .endFinally =>
    let type ← pop
    let v ← pop
    let tb ← pop
    match type with
    | .exceptionType _ =>
      let e ← orFailWith ((← store).normalize type v)
      match tb with
      | .traceback _ entries => raiseAgain e entries
      | _ => raiseAgain e []
    | _ => return .next
  | .returnValue =>
    let v ← pop
    return .ret v

/-! ### Instructions with a count -/

/-- Raises: the handled exception again, or a kind or instance, with a value and a traceback if
there are that many operands. -/
def raiseOperands (n : Nat) : Exec Signal := do
  match n with
  | 0 =>
    match (← frame).handled with
    | some (e, entries) => raiseAgain e entries
    | none => fail (.notException Value.none.typeName)
  | 1 =>
    let type ← pop
    raise (← orFailWith ((← store).normalize type .none))
  | 2 =>
    let v ← pop
    let type ← pop
    raise (← orFailWith ((← store).normalize type v))
  | 3 =>
    let tb ← pop
    let v ← pop
    let type ← pop
    let e ← orFailWith ((← store).normalize type v)
    match tb with
    | .traceback _ entries => raiseAgain e entries
    | .none => raise e
    | _ => fail .badTraceback
  | _ => fatal (.badRaise n)

def onCount (op : CountOp) (n : Nat) : Exec Signal := do
  match op with
  | .buildTuple =>
    let items ← popMany n
    push (.tuple items)
    return .next
  | .buildList =>
    let items ← popMany n
    let (v, s) := (← store).newList items
    setStore s
    push v
    return .next
  | .buildMap =>
    let (v, s) := (← store).newDict []
    setStore s
    push v
    return .next
  | .unpackSequence =>
    let v ← pop
    match (← store).items? v with
    | none => fail (.notIterable v.typeName)
    | some items =>
      if items.length = n then
        let f ← frame
        setFrame { f with stack := items ++ f.stack }
        return .next
      else fail (.unpackCount n items.length)
  | .makeFunction =>
    let v ← pop
    let defaults ← popMany n
    match v with
    | .code _ unit =>
      let (g, s) := (← store).newFunction unit defaults (← frame).globals []
      setStore s
      push (.function g)
      return .next
    | _ => fatal (.notCode v.typeName)
  | .raiseVarargs => raiseOperands n

/-! ### Calls -/

/-- Keyword arguments from alternating names and values. -/
def keywords : List Value → Except Failure Keywords
  | .str key :: v :: rest => do
    let more ← keywords rest
    return (key, v) :: more
  | _ :: _ :: _ => .error .keywordNotText
  | _ => .ok []

/-- Calls a value: a function hands over to a new frame, all else answers at once. -/
def callWith (f : Value) (args : List Value) (kwargs : Keywords) : Exec Signal := do
  match f with
  | .function f =>
    match f.bind args kwargs (← store) with
    | .ok (callee, s) =>
      setStore s
      return .call callee
    | .error (.inl e) => fail e
    | .error (.inr cause) => fatal cause
  | _ => fun m =>
    match Memory.callValue m.frame.globals f args kwargs m.memory with
    | .ok v memory => .ok .next { frame := m.frame.push v, memory }
    | .error e memory => fail e { m with memory }

/-- The positional arguments that a call takes from a sequence on the top of the stack. -/
def popSpread : CallOp → Exec (List Value)
  | .callFunction => return []
  | .callFunctionVar => do
    let v ← pop
    match (← store).items? v with
    | some items => return items
    | none => fail (.notSequence v.typeName)

def onCall (op : CallOp) (arg : UInt32) : Exec Signal := do
  let spread ← popSpread op
  let (positional, named) := splitArgSpec arg
  let kwargs ← orFail (keywords (← popMany (2 * named.toNat)))
  let args ← popMany positional.toNat
  let f ← pop
  callWith f (args ++ spread) kwargs

end Exec

/-! ### All instructions -/

open Exec in
/-- What the instruction at an index does. -/
def execute (ins : Instruction) (index : Nat) : Exec Signal := do
  let n := ins.arg.toNat
  match ins.opcode with
  | .bare op => onBare op index
  | .loadConst =>
    match (← frame).code.consts[n]? with
    | some c =>
      let (v, s) := (← store).ofConst c
      setStore s
      push v
      return .next
    | none => fatal (.constRange n)
  | .name op =>
    match ((← frame).code.pool op.pool)[n]? with
    | some x =>
      onName op n x
      return .next
    | none => fatal (.nameRange n)
  | .count op => onCount op n
  | .binaryOp =>
    match ArithOp.ofIndex? n with
    | some op =>
      let b ← pop
      let a ← pop
      push (← orFailWith ((← store).arith op a b))
      return .next
    | none => fatal (.unknownArith n)
  | .compareOp =>
    match CompareOp.ofIndex? n with
    | some op =>
      let b ← pop
      let a ← pop
      let s ← store
      settle (s.compareSettles op a b)
      push (.bool (← orFail (s.compare op a b)))
      return .next
    | none => fatal (.unknownCompare n)
  | .call op => onCall op ins.arg
  | .jump op =>
    onJump op index (ins.target index)
    return .next

end Bytewright
