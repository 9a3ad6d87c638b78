import Bytewright.Stream.Op

/-!
# Structural text of operations

Operations, constants and code units written out by their structure, with every field named.
-/

namespace Bytewright.Dump

def variant (title contents : String) : String := title ++ "(" ++ contents ++ ")"

def record (title : String) (fields : List (String × String)) : String :=
  title ++ " \x7b " ++ ", ".intercalate (fields.map fun f => f.1 ++ ": " ++ f.2) ++ " \x7d"

def list (items : List String) : String := "[" ++ ", ".intercalate items ++ "]"

def word (n : UInt32) : String := Decimal.digitsOf n.toNat

def instruction (i : Instruction) : String :=
  record "Instruction" [("opcode", i.opcode.title), ("arg", word i.arg)]

/-- A code unit whose constants have been written out already. -/
def outline (u : Outline) (consts : List String) : String :=
  record "CodeObject"
    [("argcount", word u.argCount), ("nlocals", word u.numLocals), ("stacksize", word u.stackSize),
     ("flags", variant "CodeFlags" (word u.flags.bits)),
     ("code", list (u.code.map instruction)),
     ("consts", list consts),
     ("names", Text.quotedList u.names), ("varnames", Text.quotedList u.varNames),
     ("freevars", Text.quotedList u.freeVars),
     ("filename", Text.quoted u.fileName), ("name", Text.quoted u.name),
     ("firstlineno", word u.firstLine),
     ("lnotab", list (u.lines.map fun e => "(" ++ word e.1 ++ ", " ++ word e.2 ++ ")")),
     ("docstring", match u.docString with
       | some doc => variant "Some" (Text.quoted doc)
       | none => "None")]

mutual

def const : Const → String
  | .none => "None"
  | .bool b => variant "Bool" (if b then "true" else "false")
  | .int n => variant "Integer" (Decimal.integer n.toInt)
  | .float x => variant "Float" (Decimal.write x)
  | .str s => variant "String" (Text.quoted s)
  | .tuple items => variant "Tuple" (list (consts items))
  | .code ⟨unit, pool⟩ => variant "Code" (outline unit (consts pool))

def consts : List Const → List String
  | [] => []
  | c :: cs => const c :: consts cs

end

def label (l : Label) : String := variant "Label" (Decimal.digitsOf l.id)

def op : Op → String
  | .line n => variant "SetLineno" (word n)
  | .mark l => variant "Label" (label l)
  | .bare o => (Opcode.bare o).title
  | .const c => variant Opcode.loadConst.title (const c)
  | .name o x => variant (Opcode.name o).title (Text.quoted x)
  | .count o n => variant (Opcode.count o).title (word n)
  | .arith o => variant Opcode.binaryOp.title o.title
  | .compare o => variant Opcode.compareOp.title o.title
  | .call o args kwds =>
    record (Opcode.call o).title
      [("args", Decimal.digitsOf args.toNat), ("kwds", Decimal.digitsOf kwds.toNat)]
  | .jump o l => variant (Opcode.jump o).title (label l)

/-- A stream, one entry a line: labels at the margin, line markers as remarks. -/
def stream (ops : Stream) : String :=
  String.join (ops.map fun o =>
    match o with
    | .mark l => l.text ++ ":\n"
    | .line n => "    ; line " ++ word n ++ "\n"
    | o => "    " ++ op o ++ "\n")

end Bytewright.Dump
