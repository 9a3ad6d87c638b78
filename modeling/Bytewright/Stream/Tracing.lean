import Bytewright.Stream.Assemble
import Bytewright.Stream.OfCode

/-!
# Tracing

A traced stream calls a method of a tracer before every attribute load, call, subscript, iterator
and return, with the operands that the operation is about to take.  The operation then runs on the
same operands.  The tracer is read from a reserved fast local; code that runs in the scope of its
caller reads it by name instead, and such code is traced too where it is loaded as a constant.
-/

namespace Bytewright

/-- The header with which a unit is assembled again under the same signature. -/
def Header.ofCode (c : Code) : Header :=
  let varArgs := c.flags.contains .varArgs
  let varKeywords := c.flags.contains .varKeywords
  { name := c.name
    args := c.varNames.take (c.argCount.toNat + varArgs.toNat + varKeywords.toNat)
    freeVars := c.freeVars
    varArgs
    varKeywords
    newLocals := c.flags.contains .newLocals
    firstLine := c.firstLine
    docString := c.docString }

/-- The number of values that a call takes besides the function. -/
def flatCount (args kwds : UInt8) : UInt32 := args.toUInt32 + 2 * kwds.toUInt32

/-- The argument counts of a call as a constant. -/
def argSpecConst (args kwds : UInt8) : Const := .int (Int64.ofNat (argSpec args kwds).toNat)

/-- A call with positional arguments only. -/
def plainCall (n : UInt8) : Op := .call .callFunction n 0

namespace Tracing

def slot : String := "_[tracer]"

def receiver (nested : Bool) : Op := .name (if nested then .loadName else .loadFast) slot

def reportTop (tracer : Op) (method : String) : Stream :=
  [.bare .dupTop, tracer, .name .loadAttr method, .bare .rotTwo, plainCall 1, .bare .popTop]

/-- What is put in front of an operation so that it is reported. -/
def before (tracer : Op) : Op → Stream
  | .name .loadAttr attr =>
    [.bare .dupTop, tracer, .name .loadAttr "load_attr", .bare .rotTwo, .const (.str attr),
     plainCall 2, .bare .popTop]
  | .call .callFunction args kwds =>
    let n := flatCount args kwds
    -- Unpacking twice restores the order of the arguments.
    [.count .buildTuple n, .bare .dupTopTwo, tracer, .name .loadAttr "call_function",
     .bare .rotThree, .const (argSpecConst args kwds), plainCall 3, .bare .popTop,
     .count .unpackSequence n, .count .buildTuple n, .count .unpackSequence n]
  | .bare .binarySubscr =>
    [.bare .dupTopTwo, tracer, .name .loadAttr "binary_subscr", .bare .rotThree, plainCall 2,
     .bare .popTop]
  | .bare .getIter => reportTop tracer "get_iter"
  | .bare .returnValue => reportTop tracer "return_value"
  | _ => []

/-- The operation itself; a code constant that shares its caller's scope is traced by `inner`. -/
def itself (inner : Code → Except AssembleError Code) : Op → Except AssembleError Op
  | .const (.code c) =>
    if c.flags.contains .newLocals then .ok (.const (.code c))
    else (inner c).map fun traced => .const (.code traced)
  | op => .ok op

/-- A traced stream; code constants are traced by `inner`. -/
def stream (inner : Code → Except AssembleError Code) (nested : Bool) :
    Stream → Except AssembleError Stream
  | [] => .ok []
  | op :: rest => do
    let op' ← itself inner op
    let rest ← stream inner nested rest
    return before (receiver nested) op ++ op' :: rest

/-- A traced code unit, its nested units traced down to a depth. -/
def unit : Nat → Code → Except AssembleError Code
  | 0, c => .ok c
  | depth + 1, c =>
    match (c.toStream {}).1 with
    | .error e => .error (.decode e)
    | .ok ops => do
      let traced ← stream (unit depth) true ops
      assemble c.fileName traced (Header.ofCode c)

/-- The deepest nesting of code units among the constants of a stream. -/
def nesting : Stream → Nat
  | [] => 0
  | .const c :: rest => max c.nesting (nesting rest)
  | _ :: rest => nesting rest

end Tracing

/-- A stream that reports to a tracer as it runs.  A nested stream reads the tracer by name. -/
def injectTracing (ops : Stream) (nested : Bool) : Except AssembleError Stream :=
  Tracing.stream (Tracing.unit (Tracing.nesting ops)) nested ops

end Bytewright
