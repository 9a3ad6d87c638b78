import Bytewright.Machine.Store

/-!
# Failures

The reasons for which the machine itself raises an exception.  A failure determines the kind and
the arguments of the exception; it becomes one, with an identity, when it is raised.
-/

namespace Bytewright

/-- Something with items that are reached by their position. -/
inductive Indexed where
  | tuple | list | string
deriving DecidableEq, Repr

def Indexed.name : Indexed → String
  | tuple => "tuple"
  | list => "list"
  | string => "string"

/-- Why the machine raises an exception. -/
inductive Failure where
  -- calls
  | notCallable (type : String)
  | noKeywords (callee : String)
  | noArguments (callee : Builtin)
  | keywordsOnly (callee : Builtin)
  | tooManyArguments (callee : String) (limit given : Nat)
  | multipleValues (callee key : String)
  | unexpectedKeyword (callee key : String)
  | missingArgument (callee parameter : String)
  | notSequence (type : String)
  | keywordNotText
  | lenArity (given : Nat)
  | noLength (type : String)
  | rangeArity (given : Nat)
  | rangeNotInteger
  | rangeStepZero
  -- hooks
  | hookArity (method : String) (expected given : Nat)
  | notName (type : String)
  | notArgumentTuple (type : String)
  | badArgSpec
  | notAssignable
  | hookRaised (kind message : String)
  -- names and attributes
  | unbound (name : String)
  | unboundLocal (name : String)
  | unboundFree (name : String)
  | noAttribute (type attr : String)
  -- sequences and maps
  | notIterable (type : String)
  | unpackCount (expected given : Nat)
  | indexType (what : Indexed) (type : String)
  | indexOutOfRange (what : Indexed)
  | notSubscriptable (type : String)
  | noItemAssignment (type : String)
  | spaceKeyType (type : String)
  | missingKey (key : Value)
  -- operators
  | negationType (type : String)
  | negationOverflow
  | operandTypes (op : ArithOp) (left right : String)
  | overflow
  | divisionByZero
  | floatDivisionByZero
  | floatModuloByZero
  | unorderable (op : CompareOp) (left right : String)
  -- raising
  | separateValue
  | notException (type : String)
  | badTraceback

namespace Failure

def kind : Failure → String
  | rangeStepZero | unpackCount _ _ => "ValueError"
  | notAssignable => "RuntimeError"
  | hookRaised kind _ => kind
  | unbound _ | unboundFree _ => "NameError"
  | unboundLocal _ => "UnboundLocalError"
  | noAttribute _ _ => "AttributeError"
  | indexOutOfRange _ => "IndexError"
  | missingKey _ => "KeyError"
  | negationOverflow | overflow => "OverflowError"
  | divisionByZero | floatDivisionByZero | floatModuloByZero => "ZeroDivisionError"
  | _ => "TypeError"

/-- What the exception says; a missing key speaks for itself. -/
def message : Failure → String
  | notCallable type => "'" ++ type ++ "' object is not callable"
  | noKeywords callee => callee ++ "() takes no keyword arguments"
  | noArguments callee => callee.name ++ "() takes no arguments"
  | keywordsOnly callee => callee.name ++ "() takes keyword arguments only"
  | tooManyArguments callee limit given =>
    callee ++ "() takes at most " ++ Decimal.digitsOf limit ++ " arguments (" ++
      Decimal.digitsOf given ++ " given)"
  | multipleValues callee key =>
    callee ++ "() got multiple values for keyword argument '" ++ key ++ "'"
  | unexpectedKeyword callee key =>
    callee ++ "() got an unexpected keyword argument '" ++ key ++ "'"
  | missingArgument callee parameter => callee ++ "() missing argument '" ++ parameter ++ "'"
  | notSequence type => "argument after * must be a sequence, not " ++ type
  | keywordNotText => "keywords must be strings"
  | lenArity given =>
    "len() takes exactly one argument (" ++ Decimal.digitsOf given ++ " given)"
  | noLength type => "object of type '" ++ type ++ "' has no len()"
  | rangeArity given => "range expected 1 to 3 arguments, got " ++ Decimal.digitsOf given
  | rangeNotInteger => "range() integer argument expected"
  | rangeStepZero => "range() step argument must not be zero"
  | hookArity method expected given =>
    method ++ "() takes exactly " ++ Decimal.digitsOf expected ++ " arguments (" ++
      Decimal.digitsOf given ++ " given)"
  | notName type => "expected a name, got " ++ type
  | notArgumentTuple type => "expected an argument tuple, got " ++ type
  | badArgSpec => "argspec must be a non-negative int"
  | notAssignable => "can't assign to expression"
  | hookRaised _ message => message
  | unbound name => "name '" ++ name ++ "' is not defined"
  | unboundLocal name => "local variable '" ++ name ++ "' referenced before assignment"
  | unboundFree name =>
    "free variable '" ++ name ++ "' referenced before assignment in enclosing scope"
  | noAttribute type attr => "'" ++ type ++ "' object has no attribute '" ++ attr ++ "'"
  | notIterable type => "'" ++ type ++ "' object is not iterable"
  | unpackCount expected given =>
    "expected " ++ Decimal.digitsOf expected ++ " values to unpack, got " ++
      Decimal.digitsOf given
  | indexType what type => what.name ++ " indices must be integers, not " ++ type
  | indexOutOfRange what => what.name ++ " index out of range"
  | notSubscriptable type => "'" ++ type ++ "' object is not subscriptable"
  | noItemAssignment type => "'" ++ type ++ "' object does not support item assignment"
  | spaceKeyType type => "namespace keys must be strings, not " ++ type
  | missingKey _ => ""
  | negationType type => "bad operand type for unary -: '" ++ type ++ "'"
  | negationOverflow => "integer negation overflow"
  | operandTypes op left right =>
    "unsupported operand type(s) for " ++ op.symbol ++ ": '" ++ left ++ "' and '" ++ right ++ "'"
  | overflow => "integer overflow"
  | divisionByZero => "integer division or modulo by zero"
  | floatDivisionByZero => "float division by zero"
  | floatModuloByZero => "float modulo"
  | unorderable op left right =>
    "unorderable types: " ++ left ++ "() " ++ op.symbol ++ " " ++ right ++ "()"
  | separateValue => "instance exception may not have a separate value"
  | notException type => "exceptions must derive from Exception, not " ++ type
  | badTraceback => "raise: arg 3 must be a traceback or None"

def args : Failure → List Value
  | missingKey key => [key]
  | f => [.str f.message]

end Failure

def Store.failed (s : Store) (f : Failure) : Exception × Store := s.newException f.kind f.args

/-- The kinds of exceptions that programs can name. -/
def exceptionKinds : List String :=
  ["Exception", "TypeError", "ValueError", "NameError", "UnboundLocalError", "AttributeError",
    "KeyError", "IndexError", "ZeroDivisionError", "OverflowError", "RuntimeError"]

/-- The exception is of a kind; all are of the kind `Exception`. -/
def ExceptionOf.isOf (e : Exception) (kind : String) : Bool := e.kind == kind || kind == "Exception"

/-- The exception that a kind or an instance, raised with a separate value, stands for. -/
def Store.normalize (s : Store) (type value : Value) : Except Failure (Exception × Store) :=
  match type, value with
  | .exception e, .none => .ok (e, s)
  | .exception _, _ => .error .separateValue
  | .exceptionType kind, .exception e =>
    .ok (if e.isOf kind then (e, s) else s.newException kind [value])
  | .exceptionType kind, .none => .ok (s.newException kind [])
  | .exceptionType kind, .tuple items => .ok (s.newException kind items)
  | .exceptionType kind, _ => .ok (s.newException kind [value])
  | _, _ => .error (.notException type.typeName)

end Bytewright
