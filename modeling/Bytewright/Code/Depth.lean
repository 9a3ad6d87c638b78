import Bytewright.Code.Basic

/-!
# Stack depth of code

Before code is accepted every path through it is walked over abstract states: the depth of the
value stack and the depths at which the open blocks were entered.  Every instruction has to be
reached with one state only, so one visit each is enough.
-/

namespace Bytewright

/-- How many values an instruction takes off the stack and leaves on it when control goes on with
the next instruction. -/
def Opcode.effect (op : Opcode) (arg : UInt32) : Nat × Nat :=
  match op with
  | .bare .popTop => (1, 0)
  | .bare .rotTwo => (2, 2)
  | .bare .rotThree => (3, 3)
  | .bare .dupTop => (1, 2)
  | .bare .dupTopTwo => (2, 4)
  | .loadConst => (0, 1)
  | .name .loadFast | .name .loadName | .name .loadGlobal | .name .loadDeref => (0, 1)
  | .name .storeFast | .name .storeName | .name .storeGlobal => (1, 0)
  | .name .deleteFast | .name .deleteName | .name .deleteGlobal => (0, 0)
  | .name .loadAttr => (1, 1)
  | .name .storeAttr => (2, 0)
  | .count .buildTuple | .count .buildList => (arg.toNat, 1)
  | .count .buildMap => (0, 1)
  | .bare .storeMap => (3, 1)
  | .bare .binarySubscr => (2, 1)
  | .bare .storeSubscr => (3, 0)
  | .count .unpackSequence => (1, arg.toNat)
  | .binaryOp | .compareOp => (2, 1)
  | .bare .unaryNot | .bare .unaryNegative => (1, 1)
  | .count .makeFunction => (arg.toNat + 1, 1)
  | .call .callFunction =>
    let (args, kwds) := splitArgSpec arg
    (1 + args.toNat + 2 * kwds.toNat, 1)
  | .call .callFunctionVar =>
    let (args, kwds) := splitArgSpec arg
    (2 + args.toNat + 2 * kwds.toNat, 1)
  | .jump .jumpForward | .jump .jumpAbsolute => (0, 0)
  | .jump .popJumpIfFalse | .jump .popJumpIfTrue => (1, 0)
  | .jump .setupExcept | .jump .setupLoop | .bare .popBlock => (0, 0)
  | .bare .getIter => (1, 1)
  | .jump .forIter => (1, 2)
  | .count .raiseVarargs => (arg.toNat, 0)
  | .bare .endFinally => (3, 0)
  | .bare .returnValue => (1, 0)

/-- Control never goes on with the next instruction. -/
def Opcode.endsFlow : Opcode → Bool
  | .jump .jumpForward | .jump .jumpAbsolute | .count .raiseVarargs | .bare .returnValue => true
  | _ => false

namespace Depth

/-- An abstract state between two instructions. -/
structure State where
  depth : Int
  /-- Depths at which the open blocks were entered, innermost first. -/
  blocks : List Int
deriving DecidableEq, Repr

/-- What can be wrong with the depth of a stack. -/
inductive Fault where
  /-- Control runs past the last instruction. -/
  | fallsOff
  /-- Two paths arrive in different states. -/
  | unevenJoin (before now : State)
  /-- A block is left at another depth than it was entered at. -/
  | unevenBlock (depth base : Int)
  /-- A block is left where none is open. -/
  | noBlock
  /-- A return outside of all blocks finds more or less than one value. -/
  | unevenReturn (depth : Int)
  /-- There are fewer values than the instruction takes. -/
  | underflow (op : Opcode) (pops : Nat)
  /-- The deepest stack does not fit a size. -/
  | outOfRange (depth : Int)
  /-- The deepest stack is deeper than was declared. -/
  | overMaximum (depth max : UInt32)
  /-- A reason that a caller gives. -/
  | other (reason : String)
deriving DecidableEq, Repr

/-- A fault and the instruction it was found at. -/
structure Error where
  ip : Nat
  fault : Fault
deriving DecidableEq, Repr

def Fault.message : Fault → String
  | .fallsOff => "control falls off the end of the code"
  | .unevenJoin before now =>
    "inconsistent stack at join: depth " ++ Decimal.integer before.depth ++ " with "
      ++ Decimal.digitsOf before.blocks.length ++ " block(s) vs depth "
      ++ Decimal.integer now.depth ++ " with " ++ Decimal.digitsOf now.blocks.length ++ " block(s)"
  | .unevenBlock depth base =>
    "block exited at depth " ++ Decimal.integer depth ++ " but was entered at depth "
      ++ Decimal.integer base
  | .noBlock => "POP_BLOCK outside of any block"
  | .unevenReturn depth => "return with stack depth " ++ Decimal.integer depth ++ ", expected 1"
  | .underflow op pops =>
    "stack underflow at " ++ op.mnemonic ++ ", needed " ++ Decimal.digitsOf pops ++ " items"
  | .outOfRange depth => "stack depth " ++ Decimal.integer depth ++ " is out of range"
  | .overMaximum depth max =>
    "stack depth " ++ Decimal.digitsOf depth.toNat ++ " exceeds the declared maximum of "
      ++ Decimal.digitsOf max.toNat
  | .other reason => reason

def Error.message (e : Error) : String :=
  "stack-check error at ip=" ++ Decimal.digitsOf e.ip ++ ": " ++ e.fault.message

/-! ### One instruction -/

/-- What follows an instruction: the depth after its effect, the state in which it jumps and where
to, and the state in which the next instruction is reached. -/
structure Flow where
  after : Int
  jump : Option (Nat × State)
  next : Option State
deriving DecidableEq, Repr

/-- The open blocks once an instruction has closed what it closes.  A block is left at the depth
it was entered at, and a return outside of all blocks finds exactly one value. -/
def leave (op : Opcode) (s : State) : Except Fault (List Int) :=
  match op with
  | .bare .popBlock =>
    match s.blocks with
    | base :: outer => if base = s.depth then .ok outer else .error (.unevenBlock s.depth base)
    | [] => .error .noBlock
  | .bare .returnValue =>
    if s.blocks = [] ∧ s.depth ≠ 1 then .error (.unevenReturn s.depth) else .ok s.blocks
  | _ => .ok s.blocks

/-- The state on the jump edge of an instruction entered in state `entry` whose effect leads to
`after`.  A handler starts with three values above the depth of its block, the end of a loop at
the depth of the loop, and an exhausted iterator is gone. -/
def jumpState (op : JumpOp) (entry after : State) : State :=
  match op with
  | .setupExcept => { entry with depth := entry.depth + 3 }
  | .setupLoop => entry
  | .forIter => { entry with depth := entry.depth - 1 }
  | _ => after

/-- The blocks that are open after an instruction entered at `depth`. -/
def enter (op : Opcode) (depth : Int) (blocks : List Int) : List Int :=
  match op with
  | .jump .setupExcept | .jump .setupLoop => depth :: blocks
  | _ => blocks

/-- What follows the instruction `i` at `ip` in state `s`. -/
def flow (ip : Nat) (i : Instruction) (s : State) : Except Fault Flow := do
  let blocks ← leave i.opcode s
  let (pops, pushes) := i.opcode.effect i.arg
  if s.depth - pops < 0 then throw (.underflow i.opcode pops)
  let after : State := ⟨s.depth - pops + pushes, blocks⟩
  let jump := match i.opcode, i.target ip with
    | .jump op, some target => some (target, jumpState op s after)
    | _, _ => none
  let next := if i.opcode.endsFlow then none
    else some { after with blocks := enter i.opcode s.depth blocks }
  return ⟨after.depth, jump, next⟩

/-- The greatest depth that shows on the way out of an instruction. -/
def Flow.deepest (f : Flow) : Int :=
  match f.jump with
  | some (_, s) => max f.after s.depth
  | none => f.after

/-- The places that control goes to, the next instruction first. -/
def Flow.edges (ip : Nat) (f : Flow) : List (Nat × State) :=
  (f.next.map fun s => (ip + 1, s)).toList ++ f.jump.toList

/-! ### The walk -/

/-- The states recorded so far, one place for each instruction. -/
abbrev Record := List (Option State)

theorem countP_set_lt {seen : Record} {ip : Nat} (s : State) (h : seen[ip]? = some none) :
    (seen.set ip (some s)).countP Option.isNone < seen.countP Option.isNone := by
  obtain ⟨bound, entry⟩ := List.getElem?_eq_some_iff.1 h
  have positive : 0 < seen.countP Option.isNone :=
    List.countP_pos_iff.2 ⟨none, entry ▸ List.getElem_mem bound, rfl⟩
  have vacant : seen[ip].isNone = true := by rw [entry]; rfl
  have shut : (some s).isNone = false := rfl
  rw [List.countP_set bound, if_pos vacant, if_neg (by rw [shut]; exact Bool.false_ne_true)]
  omega

/-- Walks the places on the work list and what follows from them.  `seen` holds the state of each
instruction that was reached, `deepest` the greatest depth so far. -/
def walk (code : List Instruction) (seen : Record) (deepest : Int) :
    List (Nat × State) → Except Error (Record × Int)
  | [] => .ok (seen, deepest)
  | (ip, s) :: work =>
    match code[ip]?, _h : seen[ip]? with
    | some i, some none =>
      match flow ip i s with
      | .error fault => .error ⟨ip, fault⟩
      | .ok f => walk code (seen.set ip (some s)) (max deepest f.deepest) (f.edges ip ++ work)
    | some _, some (some before) =>
      if before = s then walk code seen deepest work else .error ⟨ip, .unevenJoin before s⟩
    | _, _ => .error ⟨ip, .fallsOff⟩
termination_by work => (seen.countP Option.isNone, work.length)
decreasing_by
  · exact Prod.Lex.left _ _ (countP_set_lt s _h)
  · exact Prod.Lex.right _ (Nat.lt_succ_self _)

/-- The states that a walk from an initial depth records, and the greatest depth. -/
def survey (code : List Instruction) (initial : Int) : Except Error (Record × Int) :=
  walk code (List.replicate code.length none) initial [(0, ⟨initial, []⟩)]

/-- The deepest stack of code that is entered at an initial depth. -/
def checkFrom (code : List Instruction) (initial : Int) : Except Error UInt32 := do
  let (_, deepest) ← survey code initial
  if deepest < 4294967296 then return UInt32.ofNat deepest.toNat
  else throw ⟨0, .outOfRange deepest⟩

/-- The deepest stack of code that is entered with an empty stack. -/
def check (code : List Instruction) : Except Error UInt32 := checkFrom code 0

end Depth

end Bytewright
