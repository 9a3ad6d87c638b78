/-!
# Opcodes

The kinds of instructions, grouped by what their argument means: nothing, a name, a count, an
operator, the argument counts of a call, or a place to jump to.  Every opcode has a fixed number,
its place in `Opcode.all`, and two spellings.
-/

namespace Bytewright

/-- Opcodes without an argument. -/
inductive BareOp where
  | popTop | rotTwo | rotThree | dupTop | dupTopTwo
  | storeMap | binarySubscr | storeSubscr
  | unaryNot | unaryNegative
  | popBlock | getIter | endFinally | returnValue
deriving DecidableEq, Repr

/-- Opcodes whose argument stands for a name. -/
inductive NameOp where
  | loadFast | storeFast | deleteFast
  | loadName | storeName | deleteName
  | loadGlobal | storeGlobal | deleteGlobal
  | loadDeref
  | loadAttr | storeAttr
deriving DecidableEq, Repr

/-- Opcodes whose argument is a count. -/
inductive CountOp where
  | buildTuple | buildList | buildMap | unpackSequence | makeFunction | raiseVarargs
deriving DecidableEq, Repr

/-- Calls: with the given arguments only, or with a sequence of further ones. -/
inductive CallOp where
  | callFunction | callFunctionVar
deriving DecidableEq, Repr

/-- Opcodes whose argument leads to another instruction. -/
inductive JumpOp where
  | jumpForward | jumpAbsolute | popJumpIfFalse | popJumpIfTrue
  | setupExcept | setupLoop | forIter
deriving DecidableEq, Repr

/-- The kind of an instruction. -/
inductive Opcode where
  | bare (op : BareOp)
  | loadConst
  | name (op : NameOp)
  | count (op : CountOp)
  | binaryOp
  | compareOp
  | call (op : CallOp)
  | jump (op : JumpOp)
deriving DecidableEq, Repr

namespace Opcode

/-- All opcodes, in the order of their numbers. -/
def all : List Opcode :=
  [bare .popTop, bare .rotTwo, bare .rotThree, bare .dupTop, bare .dupTopTwo,
   loadConst,
   name .loadFast, name .storeFast, name .deleteFast,
   name .loadName, name .storeName, name .deleteName,
   name .loadGlobal, name .storeGlobal, name .deleteGlobal,
   name .loadDeref, name .loadAttr, name .storeAttr,
   count .buildTuple, count .buildList, count .buildMap,
   bare .storeMap, bare .binarySubscr, bare .storeSubscr, count .unpackSequence,
   binaryOp, compareOp, bare .unaryNot, bare .unaryNegative,
   count .makeFunction, call .callFunction, call .callFunctionVar,
   jump .jumpForward, jump .jumpAbsolute, jump .popJumpIfFalse, jump .popJumpIfTrue,
   jump .setupExcept, jump .setupLoop, bare .popBlock, bare .getIter, jump .forIter,
   count .raiseVarargs, bare .endFinally, bare .returnValue]

def index (op : Opcode) : Nat := all.idxOf op

def ofIndex? (n : Nat) : Option Opcode := all[n]?

/-- The spelling of an opcode in listings and messages. -/
def mnemonic : Opcode → String
  | bare .popTop => "POP_TOP"
  | bare .rotTwo => "ROT_TWO"
  | bare .rotThree => "ROT_THREE"
  | bare .dupTop => "DUP_TOP"
  | bare .dupTopTwo => "DUP_TOP_TWO"
  | loadConst => "LOAD_CONST"
  | name .loadFast => "LOAD_FAST"
  | name .storeFast => "STORE_FAST"
  | name .deleteFast => "DELETE_FAST"
  | name .loadName => "LOAD_NAME"
  | name .storeName => "STORE_NAME"
  | name .deleteName => "DELETE_NAME"
  | name .loadGlobal => "LOAD_GLOBAL"
  | name .storeGlobal => "STORE_GLOBAL"
  | name .deleteGlobal => "DELETE_GLOBAL"
  | name .loadDeref => "LOAD_DEREF"
  | name .loadAttr => "LOAD_ATTR"
  | name .storeAttr => "STORE_ATTR"
  | count .buildTuple => "BUILD_TUPLE"
  | count .buildList => "BUILD_LIST"
  | count .buildMap => "BUILD_MAP"
  | bare .storeMap => "STORE_MAP"
  | bare .binarySubscr => "BINARY_SUBSCR"
  | bare .storeSubscr => "STORE_SUBSCR"
  | count .unpackSequence => "UNPACK_SEQUENCE"
  | binaryOp => "BINARY_OP"
  | compareOp => "COMPARE_OP"
  | bare .unaryNot => "UNARY_NOT"
  | bare .unaryNegative => "UNARY_NEGATIVE"
  | count .makeFunction => "MAKE_FUNCTION"
  | call .callFunction => "CALL_FUNCTION"
  | call .callFunctionVar => "CALL_FUNCTION_VAR"
  | jump .jumpForward => "JUMP_FORWARD"
  | jump .jumpAbsolute => "JUMP_ABSOLUTE"
  | jump .popJumpIfFalse => "POP_JUMP_IF_FALSE"
  | jump .popJumpIfTrue => "POP_JUMP_IF_TRUE"
  | jump .setupExcept => "SETUP_EXCEPT"
  | jump .setupLoop => "SETUP_LOOP"
  | bare .popBlock => "POP_BLOCK"
  | bare .getIter => "GET_ITER"
  | jump .forIter => "FOR_ITER"
  | count .raiseVarargs => "RAISE_VARARGS"
  | bare .endFinally => "END_FINALLY"
  | bare .returnValue => "RETURN_VALUE"

/-- Joins the words of an underscored upper-case spelling, each with a capital; `upper` says
whether the next letter is one. -/
def joinWords (upper : Bool) : List Char → List Char
  | [] => []
  | '_' :: cs => joinWords true cs
  | c :: cs => (if upper then c else c.toLower) :: joinWords false cs

/-- The spelling of an opcode in symbolic streams. -/
def title (op : Opcode) : String := String.ofList (joinWords true op.mnemonic.toList)

end Opcode

/-- The argument counts from the instruction after the jump, not from the start of the code. -/
def JumpOp.isRelative : JumpOp → Bool
  | .jumpForward | .setupExcept | .setupLoop | .forIter => true
  | .jumpAbsolute | .popJumpIfFalse | .popJumpIfTrue => false

/-- The name is looked up in, stored to or deleted from the dynamic scope. -/
def NameOp.isDynamic : NameOp → Bool
  | .loadName | .storeName | .deleteName => true
  | _ => false

/-! ### Argument counts of calls -/

/-- The argument counts of a call as one number: keywords in the second byte, positionals in the
first. -/
def argSpec (args kwds : UInt8) : UInt32 := (kwds.toUInt32 <<< 8) ||| args.toUInt32

/-- The positional and keyword counts in an argument; higher bytes are ignored. -/
def splitArgSpec (arg : UInt32) : UInt8 × UInt8 := (arg.toUInt8, (arg >>> 8).toUInt8)

end Bytewright
