import Bytewright.Machine.Failure
import Bytewright.Machine.Text

/-!
# Hooks

Instrumented code calls the methods of a tracer or an inverter.  A tracer is told what is about to
happen; an inverter performs the store that undoes the last load, so each of its methods takes the
value to be stored as a last operand.

A method checks its arguments against its signature.  A recording hook then writes the call into
the log, together with the store, because what an operand refers to may change later.  What a method
does then is up to the hook.
-/

namespace Bytewright

/-! ### Signatures -/

/-- What a method expects at a position. -/
inductive OperandKind where
  | value | name | arguments | argSpec
deriving DecidableEq, Repr

inductive Operand where
  | value (v : Value)
  | name (x : String)
  | arguments (vs : List Value)
  | argSpec (n : UInt32)

def HookKind.calls : HookKind → List HookCall
  | tracer => [.loadAttr, .callFunction, .binarySubscr, .getIter, .returnValue]
  | inverter => [.loadName, .loadAttr, .callFunction, .binarySubscr]

def HookKind.call? (kind : HookKind) (name : String) : Option HookCall :=
  kind.calls.find? fun call => call.name == name

/-- What the instruction that a method stands for works on. -/
def HookCall.subject : HookCall → List OperandKind
  | loadName => [.name]
  | loadAttr => [.value, .name]
  | callFunction => [.value, .arguments, .argSpec]
  | binarySubscr => [.value, .value]
  | getIter => [.value]
  | returnValue => [.value]

def HookCall.signature (kind : HookKind) (call : HookCall) : List OperandKind :=
  match kind with
  | .tracer => call.subject
  | .inverter => call.subject ++ [.value]

/-- An argument as an operand of the given kind. -/
def OperandKind.check (kind : OperandKind) (v : Value) : Except Failure Operand :=
  match kind, v with
  | value, v => .ok (.value v)
  | name, .str x => .ok (.name x)
  | name, v => .error (.notName v.typeName)
  | arguments, .tuple vs => .ok (.arguments vs)
  | arguments, v => .error (.notArgumentTuple v.typeName)
  | argSpec, v =>
    match v.asInt? with
    | some n =>
      if 0 ≤ n.toInt ∧ n.toInt < 4294967296 then .ok (.argSpec (UInt32.ofNat n.toInt.toNat))
      else .error .badArgSpec
    | none => .error .badArgSpec

def checkOperands : List OperandKind → List Value → Except Failure (List Operand)
  | kind :: kinds, v :: vs => do
    let operand ← kind.check v
    let operands ← checkOperands kinds vs
    return operand :: operands
  | _, _ => .ok []

def HookCall.operands (kind : HookKind) (call : HookCall) (args : List Value) :
    Except Failure (List Operand) :=
  let signature := call.signature kind
  if args.length = signature.length then checkOperands signature args
  else .error (.hookArity (call.fullName kind) signature.length args.length)

/-! ### Answers -/

/-- A recorded call of a hook. -/
structure Event where
  call : HookCall
  operands : List Operand
  store : Store

/-- The store, and what hooks have recorded. -/
structure Memory where
  store : Store := {}
  /-- Recorded calls, latest first. -/
  log : List Event := []

/-- A hook writes a call into the log, if it records calls. -/
def Memory.reported (h : Hook) (call : HookCall) (operands : List Operand) (m : Memory) : Memory :=
  if h.records then { m with log := ⟨call, operands, m.store⟩ :: m.log } else m

end Bytewright
