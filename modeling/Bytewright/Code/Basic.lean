import Bytewright.Code.Flags
import Bytewright.Code.Opcode
import Bytewright.Code.Operator
import Bytewright.Number.Decimal
import Bytewright.Text.Quoted

/-!
# Code units and constants

A code unit is a list of instructions with the pools that their arguments index, and what is known
about where it came from.  A constant is what an instruction can carry from the source into a run;
code units are constants too, so the two types are defined together.
-/

namespace Bytewright

/-- An opcode with its argument: a pool index, a count, a jump distance or target, or zero. -/
structure Instruction where
  opcode : Opcode
  arg : UInt32
deriving DecidableEq, Repr

/-- Where the instruction leads when it stands at `index`, if it is a jump. -/
def Instruction.target (i : Instruction) (index : Nat) : Option Nat :=
  match i.opcode with
  | .jump op => some (if op.isRelative then index + 1 + i.arg.toNat else i.arg.toNat)
  | _ => none

/-- All of a code unit but its constants. -/
structure Outline where
  /-- Positional parameters, not counting those that collect surplus arguments. -/
  argCount : UInt32 := 0
  numLocals : UInt32 := 0
  /-- Deepest value stack that any path reaches. -/
  stackSize : UInt32
  flags : Flags := ⟨0⟩
  code : List Instruction
  /-- Names of dynamic, global and attribute access. -/
  names : List String := []
  /-- Names of fast locals, parameters first. -/
  varNames : List String := []
  freeVars : List String := []
  fileName : String
  name : String
  /-- The line of instructions before the first entry of the line table. -/
  firstLine : UInt32
  /-- Line table: an instruction index and the line that starts there. -/
  lines : List (UInt32 × UInt32) := []
  /-- Documentation, if there is any. -/
  docString : Option String := none
deriving DecidableEq, Repr, Inhabited

/-- A code unit over a type of constants. -/
structure CodeOf (κ : Type) extends Outline where
  consts : List κ := []
deriving Repr, Inhabited

/-- A constant. -/
inductive Const where
  | none
  | bool (b : Bool)
  | int (n : Int64)
  | float (x : Binary64)
  | str (s : String)
  | tuple (items : List Const)
  | code (unit : CodeOf Const)

/-- A code unit. -/
abbrev Code := CodeOf Const

/-! ### Name pools -/

/-- The pools of names in a code unit. -/
inductive NamePool where
  | locals
  /-- Dynamic, global and attribute names. -/
  | names
  | free
deriving DecidableEq, Repr

/-- The pool that the argument of an opcode indexes. -/
def NameOp.pool : NameOp → NamePool
  | .loadFast | .storeFast | .deleteFast => .locals
  | .loadDeref => .free
  | _ => .names

def Outline.pool (u : Outline) : NamePool → List String
  | .locals => u.varNames
  | .names => u.names
  | .free => u.freeVars

/-! ### Equality -/

mutual

/-- Equality of constants of one kind, floating-point numbers compared as numbers at every
depth. -/
def Const.agrees : Const → Const → Bool
  | .none, .none => true
  | .bool a, .bool b => a == b
  | .int a, .int b => a == b
  | .float a, .float b => a.equals b
  | .str a, .str b => a == b
  | .tuple a, .tuple b => agreeList a b
  | .code a, .code b => agreeCode a b
  | _, _ => false

/-- Equality of code units, floating-point constants compared as numbers. -/
def agreeCode : CodeOf Const → CodeOf Const → Bool
  | ⟨outline, consts⟩, other => outline == other.toOutline && agreeList consts other.consts

/-- Lists agree when they have one length and agree place by place. -/
def agreeList : List Const → List Const → Bool
  | [], [] => true
  | a :: as, b :: bs => a.agrees b && agreeList as bs
  | _, _ => false

end

/-- Equality of code units, floating-point constants compared as numbers. -/
def CodeOf.agrees (a b : Code) : Bool := agreeCode a b

mutual

/-- Constants that share a pool slot: equal and of one kind, floating-point numbers by their bit
pattern.  Nested code units are compared by `Code.agrees`. -/
def Const.sameAs : Const → Const → Bool
  | .none, .none => true
  | .bool a, .bool b => a == b
  | .int a, .int b => a == b
  | .float a, .float b => a == b
  | .str a, .str b => a == b
  | .tuple a, .tuple b => sameList a b
  | .code a, .code b => a.agrees b
  | _, _ => false

/-- Lists are the same when they have one length and are the same place by place. -/
def sameList : List Const → List Const → Bool
  | [], [] => true
  | a :: as, b :: bs => a.sameAs b && sameList as bs
  | _, _ => false

end

/-! ### Text -/

namespace Const

def typeName : Const → String
  | none => "none"
  | bool _ => "bool"
  | int _ => "int"
  | float _ => "float"
  | str _ => "str"
  | tuple _ => "tuple"
  | code _ => "code"

end Const

/-- Items between parentheses, with a comma after a lone one. -/
def tupleText : List String → String
  | [one] => "(" ++ one ++ ",)"
  | items => "(" ++ ", ".intercalate items ++ ")"

mutual

/-- A constant as it would be written in a fragment. -/
def Const.text : Const → String
  | .none => "None"
  | .bool true => "True"
  | .bool false => "False"
  | .int n => Decimal.integer n.toInt
  | .float x => Decimal.write x
  | .str s => Text.quoted s
  | .tuple items => tupleText (constTexts items)
  | .code unit => "<code " ++ unit.name ++ ">"

def constTexts : List Const → List String
  | [] => []
  | c :: cs => c.text :: constTexts cs

end

/-! ### Nesting -/

mutual

/-- How many code units stand inside one another in a constant. -/
def Const.nesting : Const → Nat
  | .code ⟨_, consts⟩ => nestingOfConsts consts + 1
  | _ => 0

def nestingOfConsts : List Const → Nat
  | [] => 0
  | c :: cs => max c.nesting (nestingOfConsts cs)

end

/-! ### Places in a unit -/

namespace CodeOf

variable {κ : Type}

/-- The line that a line table gives an instruction: that of the last entry before the first one
that lies beyond the instruction. -/
def lineIn (index : Nat) : UInt32 → List (UInt32 × UInt32) → UInt32
  | line, [] => line
  | line, (start, next) :: rest =>
    if index < start.toNat then line else lineIn index next rest

/-- The source line of the instruction at `index`. -/
def lineFor (c : CodeOf κ) (index : Nat) : UInt32 := lineIn index c.firstLine c.lines

/-- Where the instruction at `index` leads, if it is a jump. -/
def jumpTarget (c : CodeOf κ) (index : Nat) : Option Nat :=
  match c.code[index]? with
  | some i => i.target index
  | none => none

end CodeOf

end Bytewright
