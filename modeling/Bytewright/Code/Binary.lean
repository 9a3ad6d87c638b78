import Bytewright.Code.Basic

/-!
# Binary form of code units

A code unit is written as its fields in a fixed order.  Naturals are written in groups of seven
bits, least first, with the high bit set on all bytes but the last; signed integers are folded to
naturals by alternating signs; floating-point numbers are their eight bytes, least first; texts and
lists have their length in front.  Reading ignores what follows the unit.
-/

namespace Bytewright

namespace Binary

abbrev Bytes := List UInt8

/-- What can be wrong with bytes. -/
inductive Fault where
  | unexpectedEnd
  | badNatural
  | badBool
  | badOption
  | badText
  | unknownCase
deriving DecidableEq, Repr

/-- A reader takes bytes from the front and answers with the rest. -/
abbrev Reader (α : Type) := StateT Bytes (Except Fault) α

def refuse {α : Type} (fault : Fault) : Reader α := fun _ => .error fault

/-! ### Naturals -/

/-- A natural in groups of seven bits. -/
def natural (n : Nat) : Bytes :=
  if n < 128 then [UInt8.ofNat n] else UInt8.ofNat (n % 128 + 128) :: natural (n / 128)
termination_by n
decreasing_by omega

/-- Reads a natural of at most `size` bytes, the last of which may be at most `limit` if all of
them are used. -/
def readGroups (limit : Nat) : Nat → Reader Nat
  | 0, _ => .error .badNatural
  | _ + 1, [] => .error .unexpectedEnd
  | size + 1, b :: rest =>
    if b.toNat < 128 then
      if size = 0 ∧ limit < b.toNat then .error .badNatural else .ok (b.toNat, rest)
    else
      match readGroups limit size rest with
      | .ok (high, rest) => .ok (b.toNat - 128 + 128 * high, rest)
      | .error e => .error e

def readWord : Reader UInt32 := do return UInt32.ofNat (← readGroups 15 5)

def readNatural : Reader Nat := readGroups 1 10

/-! ### Scalars -/

def word (n : UInt32) : Bytes := natural n.toNat

/-- The natural that stands for a signed integer: even for the non-negative ones. -/
def fold (n : Int) : Nat := if 0 ≤ n then 2 * n.toNat else 2 * (-n).toNat - 1

/-- The signed integer that a natural stands for. -/
def unfold (m : Nat) : Int := if m % 2 = 0 then m / 2 else -((m + 1) / 2 : Nat)

def integer (n : Int64) : Bytes := natural (fold n.toInt)

def readInteger : Reader Int64 := do return Int64.ofInt (unfold (← readNatural))

/-- The `count` lowest bytes of a natural, least first. -/
def bytesOf : Nat → Nat → Bytes
  | 0, _ => []
  | count + 1, n => UInt8.ofNat (n % 256) :: bytesOf count (n / 256)

/-- Reads a natural of `count` bytes, least first. -/
def readBytes : Nat → Reader Nat
  | 0, rest => .ok (0, rest)
  | _ + 1, [] => .error .unexpectedEnd
  | count + 1, b :: rest =>
    match readBytes count rest with
    | .ok (high, rest) => .ok (b.toNat + 256 * high, rest)
    | .error e => .error e

def float (x : Binary64) : Bytes := bytesOf 8 x.bits.toNat

def readFloat : Reader Binary64 := do return ⟨UInt64.ofNat (← readBytes 8)⟩

def bool (b : Bool) : Bytes := [if b then 1 else 0]

def readBool : Reader Bool
  | [] => .error .unexpectedEnd
  | 0 :: rest => .ok (false, rest)
  | 1 :: rest => .ok (true, rest)
  | _ :: _ => .error .badBool

/-! ### Texts and lists -/

def text (s : String) : Bytes := natural s.toUTF8.size ++ s.toUTF8.toList

def readText : Reader String := do
  let size ← readNatural
  fun rest =>
    if rest.length < size then .error .unexpectedEnd
    else
      match String.fromUTF8? ⟨(rest.take size).toArray⟩ with
      | some s => .ok (s, rest.drop size)
      | none => .error .badText

def list {α : Type} (item : α → Bytes) (items : List α) : Bytes :=
  natural items.length ++ items.flatMap item

def readMany {α : Type} (item : Reader α) : Nat → Reader (List α)
  | 0 => pure []
  | n + 1 => do
    let x ← item
    return x :: (← readMany item n)

def readList {α : Type} (item : Reader α) : Reader (List α) := do readMany item (← readNatural)

/-- Something that may be missing. -/
def option {α : Type} (item : α → Bytes) : Option α → Bytes
  | none => [0]
  | some x => 1 :: item x

/-- Reads something that may be missing. -/
def readOption {α : Type} (item : Reader α) : Reader (Option α)
  | [] => .error .unexpectedEnd
  | 0 :: rest => .ok (none, rest)
  | 1 :: rest => (do return some (← item) : Reader (Option α)) rest
  | _ :: _ => .error .badOption

/-! ### Instructions -/

/-- An instruction: the number of its opcode and its argument. -/
def instruction (i : Instruction) : Bytes := natural i.opcode.index ++ word i.arg

def readOpcode : Reader Opcode := do
  match Opcode.ofIndex? (← readWord).toNat with
  | some op => return op
  | none => refuse .unknownCase

def readInstruction : Reader Instruction := do
  let opcode ← readOpcode
  let arg ← readWord
  return ⟨opcode, arg⟩

def entry (e : UInt32 × UInt32) : Bytes := word e.1 ++ word e.2

def readEntry : Reader (UInt32 × UInt32) := do
  let start ← readWord
  let line ← readWord
  return (start, line)

/-! ### Constants and units -/

/-- A unit whose constants are written already. -/
def outline (u : Outline) (consts : Bytes) : Bytes :=
  word u.argCount ++ word u.numLocals ++ word u.stackSize ++ word u.flags.bits
    ++ list instruction u.code ++ consts
    ++ list text u.names ++ list text u.varNames ++ list text u.freeVars
    ++ text u.fileName ++ text u.name ++ word u.firstLine
    ++ list entry u.lines ++ option text u.docString

mutual

/-- A constant: the number of its kind and its contents. -/
def const : Const → Bytes
  | .none => [0]
  | .bool b => 1 :: bool b
  | .int n => 2 :: integer n
  | .float x => 3 :: float x
  | .str s => 4 :: text s
  | .tuple items => 5 :: natural items.length ++ consts items
  | .code ⟨unit, pool⟩ => 6 :: outline unit (natural pool.length ++ consts pool)

def consts : List Const → Bytes
  | [] => []
  | c :: cs => const c ++ consts cs

end

def readUnit (item : Reader Const) : Reader Code := do
  let argCount ← readWord
  let numLocals ← readWord
  let stackSize ← readWord
  let flags : Flags := ⟨← readWord⟩
  let code ← readList readInstruction
  let consts ← readList item
  let names ← readList readText
  let varNames ← readList readText
  let freeVars ← readList readText
  let fileName ← readText
  let name ← readText
  let firstLine ← readWord
  let lines ← readList readEntry
  let docString ← readOption readText
  return { argCount, numLocals, stackSize, flags, code, consts, names, varNames, freeVars,
           fileName, name, firstLine, lines, docString }

/-- Reads a constant whose nesting is at most `depth`.  Each level takes at least one byte, so the
number of bytes is depth enough. -/
def readConst : Nat → Reader Const
  | 0 => refuse .unexpectedEnd
  | depth + 1 => do
    match (← readWord).toNat with
    | 0 => return .none
    | 1 => return .bool (← readBool)
    | 2 => return .int (← readInteger)
    | 3 => return .float (← readFloat)
    | 4 => return .str (← readText)
    | 5 => return .tuple (← readList (readConst depth))
    | 6 => return .code (← readUnit (readConst depth))
    | _ => refuse .unknownCase

end Binary

/-- The binary form of a unit. -/
def CodeOf.toBytes (c : Code) : Binary.Bytes :=
  Binary.outline c.toOutline (Binary.natural c.consts.length ++ Binary.consts c.consts)

/-- The unit at the front of bytes. -/
def CodeOf.ofBytes (bytes : Binary.Bytes) : Except Binary.Fault Code :=
  (Binary.readUnit (Binary.readConst bytes.length)).run' bytes

end Bytewright
