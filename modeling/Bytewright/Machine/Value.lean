import Bytewright.Code.Basic

/-!
# Values

A value is what a run computes with.  Lists, maps, name spaces and iterators are shared and change
in place: a value holds only a reference to a cell of the store.  Code, functions, exceptions,
tracebacks and hooks never change, but are told apart by identity: each is stamped with a number
when it is made.
-/

namespace Bytewright

/-! ### References -/

structure ListRef where
  index : Nat
deriving DecidableEq, Repr

structure DictRef where
  index : Nat
deriving DecidableEq, Repr

/-- A reference to a name space. -/
structure ScopeRef where
  index : Nat
deriving DecidableEq, Repr

/-- A reference to an iterator. -/
structure IterRef where
  index : Nat
deriving DecidableEq, Repr

/-! ### Hooks -/

/-- What receives the calls of instrumented code. -/
inductive HookKind where
  | tracer
  | inverter
deriving DecidableEq, Repr

def HookKind.name : HookKind → String
  | tracer => "tracer"
  | inverter => "inverter"

inductive HookCall where
  | loadName | loadAttr | callFunction | binarySubscr | getIter | returnValue
deriving DecidableEq, Repr

/-- What a method does once its arguments are checked. -/
inductive HookAnswer where
  | accept
  | refuse
  /-- It performs the store that it is told of. -/
  | store
  | raise (kind message : String)
deriving DecidableEq, Repr

/-- A tracer or an inverter. -/
structure Hook where
  id : Nat
  kind : HookKind
  /-- Calls are written into the log. -/
  records : Bool
  answer : HookCall → HookAnswer

/-! ### Values -/

/-- Functions that the machine itself provides. -/
inductive Builtin where
  | globals | len | range | nameSpace
deriving DecidableEq, Repr

def Builtin.name : Builtin → String
  | globals => "globals"
  | len => "len"
  | range => "range"
  | nameSpace => "namespace"

/-- A line of a traceback: where a frame was. -/
structure TraceEntry where
  fileName : String
  name : String
  line : UInt32
deriving DecidableEq, Repr

/-- A function over a type of values. -/
structure FunctionOf (ν : Type) where
  id : Nat
  code : Code
  /-- Values of the last parameters when they are not given. -/
  defaults : List ν := []
  globals : ScopeRef
  /-- Values of its free variables, by position. -/
  closure : List ν := []

/-- An exception over a type of values. -/
structure ExceptionOf (ν : Type) where
  id : Nat
  kind : String
  args : List ν

/-- A value. -/
inductive Value where
  | none
  | bool (b : Bool)
  | int (n : Int64)
  | float (x : Binary64)
  | str (s : String)
  | tuple (items : List Value)
  | list (cell : ListRef)
  | dict (cell : DictRef)
  | space (cell : ScopeRef)
  | code (id : Nat) (unit : Code)
  | function (f : FunctionOf Value)
  | builtin (b : Builtin)
  | exceptionType (kind : String)
  | exception (e : ExceptionOf Value)
  | traceback (id : Nat) (entries : List TraceEntry)
  | iterator (cell : IterRef)
  | hook (h : Hook)
  | method (id : Nat) (h : Hook) (call : HookCall)

abbrev Function := FunctionOf Value

abbrev Exception := ExceptionOf Value

/-- Arguments that are passed by name, in order. -/
abbrev Keywords := List (String × Value)

namespace Value

def typeName : Value → String
  | none => "NoneType"
  | bool _ => "bool"
  | int _ => "int"
  | float _ => "float"
  | str _ => "str"
  | tuple _ => "tuple"
  | list _ => "list"
  | dict _ => "dict"
  | space _ => "namespace"
  | code _ _ => "code"
  | function _ => "function"
  | builtin _ => "builtin_function"
  | exceptionType _ => "type"
  | exception _ => "exception"
  | traceback _ _ => "traceback"
  | iterator _ => "iterator"
  | hook h => h.kind.name
  | method _ _ _ => "method"

/-- The integer that an integer or a truth value stands for. -/
def asInt? : Value → Option Int64
  | int n => some n
  | bool b => some (if b then 1 else 0)
  | _ => Option.none

/-- The floating-point number that a number or a truth value stands for. -/
def asFloat? : Value → Option Binary64
  | float x => some x
  | v => v.asInt?.map fun n => Binary64.ofInt n.toInt

end Value

end Bytewright
