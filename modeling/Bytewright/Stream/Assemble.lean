import Bytewright.Stream.Error

/-!
# Assembling streams into code units

Labels become instruction indices, names and constants become places in pools, filled in the
order of first use, and line markers become a line table.  The stack of every path is checked
before the unit is accepted.
-/

namespace Bytewright

/-- What is declared about a unit besides its stream. -/
structure Header where
  name : String
  /-- Parameters in call order; those that collect surplus arguments come last. -/
  args : List String := []
  freeVars : List String := []
  /-- A parameter collects surplus positional arguments. -/
  varArgs : Bool := false
  /-- A parameter collects surplus keyword arguments. -/
  varKeywords : Bool := false
  newLocals : Bool := false
  firstLine : UInt32 := 0
  docString : Option String := none
  maxStackSize : Option UInt32 := none
deriving Repr

namespace Assemble

/-! ### Checks -/

/-- The first item that occurred before, if there is one. -/
def firstRepeat? {α : Type} [BEq α] (seen : List α) : List α → Option α
  | [] => none
  | x :: xs => if seen.contains x then some x else firstRepeat? (x :: seen) xs

def marks (ops : Stream) : List Label :=
  ops.filterMap fun
    | .mark l => some l
    | _ => none

def references (ops : Stream) : List Label := ops.filterMap Op.jumpTarget

/-- What is wrong with the label of an operation, given all marked and all referenced labels. -/
def labelProblem? (marked referenced : List Label) : Op → Option (Label × LabelProblem)
  | .mark l => if referenced.contains l then none else some (l, .neverReferenced)
  | .jump _ l => if marked.contains l then none else some (l, .neverMarked)
  | _ => none

/-- Every label is marked at most once, and it is marked exactly when it is jumped to. -/
def checkLabels (ops : Stream) : Except AssembleError Unit :=
  match firstRepeat? [] (marks ops) with
  | some l => .error (.unresolvedLabel l .markedTwice)
  | none =>
    match ops.findSome? (labelProblem? (marks ops) (references ops)) with
    | some (l, problem) => .error (.unresolvedLabel l problem)
    | none => .ok ()

def checkParameters (args : List String) : Except AssembleError Unit :=
  match firstRepeat? [] args with
  | some name => .error (.duplicateParameter name)
  | none => .ok ()

/-! ### Layout -/

/-- A line table, latest entry first, with a marker added for line `n` before instruction `index`.
A marker at the place of the latest entry replaces its line, and one that repeats the line is
dropped. -/
def addLine (index : Nat) (n : UInt32) : List (UInt32 × UInt32) → List (UInt32 × UInt32)
  | [] => [(UInt32.ofNat index, n)]
  | (start, line) :: earlier =>
    if start.toNat = index then (start, n) :: earlier
    else if line = n then (start, line) :: earlier
    else (UInt32.ofNat index, n) :: (start, line) :: earlier

/-- The line table of a stream whose first operation has index `index`, behind the entries
`table` (latest first). -/
def lineTable (index : Nat) (table : List (UInt32 × UInt32)) : Stream → List (UInt32 × UInt32)
  | [] => table.reverse
  | .line n :: ops => lineTable index (addLine index n table) ops
  | .mark _ :: ops => lineTable index table ops
  | _ :: ops => lineTable (index + 1) table ops

/-- The index that a label has in a stream whose first operation has index `index`. -/
def position? (l : Label) (index : Nat) : Stream → Option Nat
  | [] => none
  | .mark m :: ops => if m = l then some index else position? l index ops
  | .line _ :: ops => position? l index ops
  | _ :: ops => position? l (index + 1) ops

/-! ### Pools -/

/-- The place of an item in a pool, to which it is added if it is new. -/
def intern {α : Type} (same : α → α → Bool) (pool : List α) (x : α) : UInt32 × List α :=
  match pool.findIdx? (same · x) with
  | some i => (UInt32.ofNat i, pool)
  | none => (UInt32.ofNat pool.length, pool ++ [x])

/-- The pools of a unit. -/
structure Pools where
  consts : List Const := []
  names : List String := []
  varNames : List String := []
  freeVars : List String := []

def Pools.const (p : Pools) (c : Const) : UInt32 × Pools :=
  let (i, consts) := intern Const.sameAs p.consts c
  (i, { p with consts })

def Pools.name (p : Pools) (pool : NamePool) (x : String) : UInt32 × Pools :=
  match pool with
  | .locals =>
    let (i, varNames) := intern (· == ·) p.varNames x
    (i, { p with varNames })
  | .names =>
    let (i, names) := intern (· == ·) p.names x
    (i, { p with names })
  | .free =>
    let (i, freeVars) := intern (· == ·) p.freeVars x
    (i, { p with freeVars })

/-! ### Instructions -/

/-- The argument of a jump at `index` of the stream `ops` to a label.  A relative jump counts from
the next instruction and cannot lead backward. -/
def jumpArg (ops : Stream) (index : Nat) (op : JumpOp) (l : Label) : Except AssembleError UInt32 :=
  match position? l 0 ops with
  | none => .error (.unresolvedLabel l .neverMarked)
  | some target =>
    if op.isRelative then
      if target < index + 1 then .error (.invalidJump l index)
      else .ok (UInt32.ofNat (target - index - 1))
    else .ok (UInt32.ofNat target)

/-- The argument of an operation at `index` of the stream `ops`, and the pools afterwards. -/
def argument (ops : Stream) (index : Nat) (p : Pools) : Op → Except AssembleError (UInt32 × Pools)
  | .const c => .ok (p.const c)
  | .name op x => .ok (p.name op.pool x)
  | .count _ n => .ok (n, p)
  | .arith op => .ok (UInt32.ofNat op.index, p)
  | .compare op => .ok (UInt32.ofNat op.index, p)
  | .call _ args kwds => .ok (argSpec args kwds, p)
  | .jump op l => (jumpArg ops index op l).map (·, p)
  | .bare _ | .line _ | .mark _ => .ok (0, p)

/-- The instructions of operations of the stream `ops`, the first of which has index `index`. -/
def encode (ops : Stream) (index : Nat) (p : Pools) :
    Stream → Except AssembleError (List Instruction × Pools)
  | [] => .ok ([], p)
  | op :: rest =>
    match op.opcode with
    | none => encode ops index p rest
    | some opcode => do
      let (arg, p) ← argument ops index p op
      let (code, p) ← encode ops (index + 1) p rest
      return (⟨opcode, arg⟩ :: code, p)

/-- The stack size of checked code, refused when it is above a declared maximum. -/
def stackSize (code : List Instruction) (max : Option UInt32) : Except AssembleError UInt32 :=
  match Depth.check code with
  | .error e => .error (.stackImbalance e)
  | .ok size =>
    match max with
    | some max => if max < size then .error (.stackImbalance ⟨0, .overMaximum size max⟩)
      else .ok size
    | none => .ok size

def flags (ops : Stream) (header : Header) (freeVars : List String) : Flags :=
  Flags.none
    |>.addIf (!ops.any Op.isDynamicName) .optimized
    |>.addIf header.newLocals .newLocals
    |>.addIf header.varArgs .varArgs
    |>.addIf header.varKeywords .varKeywords
    |>.addIf freeVars.isEmpty .noFree

def argCount (header : Header) : Nat :=
  header.args.length - (header.varArgs.toNat + header.varKeywords.toNat)

end Assemble

open Assemble

/-- The names that the header declares. -/
abbrev Header.pools (header : Header) : Pools where
  varNames := header.args
  freeVars := header.freeVars

/-- The code unit of a stream. -/
def assemble (fileName : String) (ops : Stream) (header : Header) : Except AssembleError Code := do
  checkLabels ops
  checkParameters header.args
  let (code, pools) ← encode ops 0 header.pools ops
  let size ← stackSize code header.maxStackSize
  return {
    argCount := UInt32.ofNat (argCount header)
    numLocals := UInt32.ofNat pools.varNames.length
    stackSize := size
    flags := flags ops header pools.freeVars
    code
    consts := pools.consts
    names := pools.names
    varNames := pools.varNames
    freeVars := pools.freeVars
    fileName
    name := header.name
    firstLine := header.firstLine
    lines := lineTable 0 [] ops
    docString := header.docString }

end Bytewright
