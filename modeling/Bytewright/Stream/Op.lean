import Bytewright.Code.Depth

/-!
# Symbolic operations

A stream is a list of operations whose operands are still symbolic: names are texts, constants are
values and places to jump to are labels.  Two kinds of entries take no instruction: line markers
and label markers.
-/

namespace Bytewright

/-- A place in a stream, known by the number it was handed out under. -/
structure Label where
  id : Nat
deriving DecidableEq, Repr

/-- The name of a label in listings and messages. -/
def Label.text (l : Label) : String := "L" ++ Decimal.digitsOf l.id

structure Labels where
  allocated : Nat := 0
deriving DecidableEq, Repr

/-- A label that was not handed out before. -/
def Labels.fresh (ls : Labels) : Label × Labels := (⟨ls.allocated⟩, ⟨ls.allocated + 1⟩)

/-- An entry of a stream. -/
inductive Op where
  /-- What follows belongs to this source line. -/
  | line (n : UInt32)
  /-- Jumps to the label arrive here. -/
  | mark (l : Label)
  | bare (op : BareOp)
  | const (c : Const)
  | name (op : NameOp) (x : String)
  | count (op : CountOp) (n : UInt32)
  | arith (op : ArithOp)
  | compare (op : CompareOp)
  | call (op : CallOp) (args kwds : UInt8)
  | jump (op : JumpOp) (l : Label)

/-- A list of symbolic operations. -/
abbrev Stream := List Op

namespace Op

/-- The opcode of an entry; markers have none. -/
def opcode : Op → Option Opcode
  | line _ | mark _ => none
  | bare op => some (.bare op)
  | const _ => some .loadConst
  | name op _ => some (.name op)
  | count op _ => some (.count op)
  | arith _ => some .binaryOp
  | compare _ => some .compareOp
  | call op _ _ => some (.call op)
  | jump op _ => some (.jump op)

/-- The label that an entry jumps to; a marker is not a jump. -/
def jumpTarget : Op → Option Label
  | jump _ l => some l
  | _ => none

/-- The entry uses a name of the dynamic scope. -/
def isDynamicName : Op → Bool
  | name op _ => op.isDynamic
  | _ => false

def isReal : Op → Bool
  | line _ | mark _ => false
  | _ => true

/-- How many values an entry takes off the stack and leaves on it. -/
def effect : Op → Nat × Nat
  | count op n => (Opcode.count op).effect n
  | call op args kwds => (Opcode.call op).effect (argSpec args kwds)
  | op =>
    match op.opcode with
    | some opcode => opcode.effect 0
    | none => (0, 0)

end Op

end Bytewright
