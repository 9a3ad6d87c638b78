import Bytewright.Code.Basic

/-!
# Listings of code units

A listing shows a header, one row for each instruction with its line, its index, a mark if some
jump leads to it and what its argument refers to, and then the listings of the code units among
the constants, indented.
-/

namespace Bytewright.Listing

/-! ### Columns -/

def padRight (width : Nat) (s : String) : String :=
  s ++ String.ofList (List.replicate (width - s.length) ' ')

def padLeft (fill : Char) (width : Nat) (s : String) : String :=
  String.ofList (List.replicate (width - s.length) fill) ++ s

def place (n : Nat) : String := padLeft '0' 4 (Decimal.digitsOf n)

def remark (arg : UInt32) (note : String) : String :=
  padRight 4 (Decimal.digitsOf arg.toNat) ++ " (" ++ note ++ ")"

/-- The argument of the instruction `i` at `ip` and what it refers to. -/
def operand (c : Code) (ip : Nat) (i : Instruction) : String :=
  match i.opcode with
  | .loadConst => remark i.arg ((c.consts[i.arg.toNat]?).elim "<bad index>" Const.text)
  | .name op => remark i.arg ((c.pool op.pool)[i.arg.toNat]?.getD "<bad index>")
  | .binaryOp => remark i.arg ((ArithOp.ofIndex? i.arg.toNat).elim "?" ArithOp.symbol)
  | .compareOp => remark i.arg ((CompareOp.ofIndex? i.arg.toNat).elim "?" CompareOp.symbol)
  | .call _ =>
    let (args, kwds) := splitArgSpec i.arg
    remark i.arg (Decimal.digitsOf args.toNat ++ " positional, "
      ++ Decimal.digitsOf kwds.toNat ++ " keyword")
  | .count _ => Decimal.digitsOf i.arg.toNat
  | .jump op =>
    let target := (i.target ip).getD 0
    if op.isRelative then remark i.arg ("to " ++ place target)
    else
      padRight 4 (Decimal.digitsOf i.arg.toNat) ++ (if target ≤ ip then " ↑" else " ↓")
        ++ " (to " ++ place target ++ ")"
  | .bare _ => ""

/-! ### Rows -/

/-- The rows of the instructions from index `ip` on; `last` is the line shown last. -/
def rows (c : Code) (margin : String) (targets : List Nat) :
    Nat → Option UInt32 → List Instruction → List String
  | _, _, [] => []
  | ip, last, i :: rest =>
    let line := c.lineFor ip
    let lineText := if last = some line then "    "
      else padLeft ' ' 4 (Decimal.digitsOf line.toNat)
    let arrow := if targets.contains ip then "►" else " "
    let arg := operand c ip i
    (margin ++ lineText ++ " " ++ place ip ++ " " ++ arrow ++ " " ++ padRight 18 i.opcode.mnemonic
      ++ (if arg.isEmpty then "" else " " ++ arg))
      :: rows c margin targets (ip + 1) (some line) rest

def targets (c : Code) : List Nat := (List.range c.code.length).filterMap c.jumpTarget

def bar : String := String.ofList (List.replicate 40 '═')

def header (c : Code) : List String :=
  [bar,
   " " ++ c.name ++ " (" ++ c.fileName ++ ":" ++ Decimal.digitsOf c.firstLine.toNat ++ ")",
   " " ++ Decimal.digitsOf c.code.length ++ " instructions, stack "
     ++ Decimal.digitsOf c.stackSize.toNat ++ ", flags " ++ c.flags.text]
  ++ (if c.varNames.isEmpty then [] else
    [" args " ++ Text.quotedList (c.varNames.take c.argCount.toNat)
      ++ ", locals " ++ Text.quotedList (c.varNames.drop c.argCount.toNat)])
  ++ (if c.freeVars.isEmpty then [] else [" free " ++ Text.quotedList c.freeVars])
  ++ [bar]

/-- The listing of one unit without those of its constants. -/
def own (c : Code) (indent : Nat) : String :=
  let margin := String.ofList (List.replicate (2 * indent) ' ')
  String.join (((header c).map (margin ++ ·) ++ rows c margin (targets c) 0 none c.code).map
    (· ++ "\n")) ++ "\n"

mutual

/-- The listing of a code unit at a depth of nesting. -/
def nested (indent : Nat) : CodeOf Const → String
  | ⟨outline, consts⟩ => own ⟨outline, consts⟩ indent ++ nestedConsts (indent + 1) consts

/-- The listings of the code units among constants. -/
def nestedConsts (indent : Nat) : List Const → String
  | [] => ""
  | .code unit :: rest => nested indent unit ++ nestedConsts indent rest
  | _ :: rest => nestedConsts indent rest

end

/-- The listing of a code unit and of the units among its constants. -/
def unit (c : Code) : String := nested 0 c

/-! ### Counts -/

mutual

/-- The opcodes of a unit and of the units among its constants. -/
def opcodes : CodeOf Const → List Opcode
  | ⟨outline, consts⟩ => outline.code.map Instruction.opcode ++ opcodesOfConsts consts

/-- The opcodes of the units among constants. -/
def opcodesOfConsts : List Const → List Opcode
  | [] => []
  | .code unit :: rest => opcodes unit ++ opcodesOfConsts rest
  | _ :: rest => opcodesOfConsts rest

end

/-- How often each opcode that occurs does, by its mnemonic. -/
def counts (c : Code) : List (String × Nat) :=
  let all := opcodes c
  (Opcode.all.map fun op => (op.mnemonic, all.count op)).filter fun entry => 0 < entry.2

/-- Orders counts by falling number and then by name. -/
def countOrder (a b : String × Nat) : Bool := a.2 > b.2 || (a.2 == b.2 && a.1 ≤ b.1)

/-- The counts as a table, most frequent first. -/
def countTable (c : Code) : String :=
  String.join (((counts c).mergeSort countOrder).map fun entry =>
    padLeft ' ' 6 (Decimal.digitsOf entry.2) ++ "  " ++ entry.1 ++ "\n")

end Bytewright.Listing
