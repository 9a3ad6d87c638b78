import Bytewright.Machine.Call

/-!
# Frames

A frame is one activation of a code unit.  Its value stack is a list with the top first.  An
instruction transforms the frame and the memory; it may raise an exception, and it may find that
the code is not executable, which nothing can catch.
-/

namespace Bytewright

/-! ### Activations -/

inductive BlockKind where
  | loop
  | except
deriving DecidableEq, Repr

/-- A region that is being executed. -/
structure Block where
  kind : BlockKind
  handler : Nat
  /-- Height of the value stack when it was entered. -/
  level : Nat
deriving DecidableEq, Repr

/-- An activation of a code unit. -/
structure Frame where
  code : Code
  fast : List (Option Value)
  names : ScopeRef
  globals : ScopeRef
  closure : List Value
  /-- The value stack, top first. -/
  stack : List Value := []
  /-- The blocks, innermost first. -/
  blocks : List Block := []
  /-- The exception that is being handled, with its traceback. -/
  handled : Option (Exception × List TraceEntry) := none
  ip : Nat := 0

def truncate (level : Nat) (stack : List Value) : List Value := stack.drop (stack.length - level)

namespace Frame

def push (f : Frame) (v : Value) : Frame := { f with stack := v :: f.stack }

/-- The line of a traceback for the frame, at an instruction. -/
def entry (f : Frame) (index : Nat) : TraceEntry :=
  ⟨f.code.fileName, f.code.name, f.code.lineFor index⟩

/-- Leaves blocks up to the innermost handler: the handler, with the stack and the blocks as they
are outside of it. -/
def findHandler? : List Block → List Value → Option (Nat × List Value × List Block)
  | [], _ => none
  | b :: blocks, stack =>
    let stack := truncate b.level stack
    match b.kind with
    | .except => some (b.handler, stack, blocks)
    | .loop => findHandler? blocks stack

/-- The frame at its innermost handler, with traceback, exception and kind pushed. -/
def enterHandler? (f : Frame) (e : Exception) (entries : List TraceEntry) (traceback : Value) :
    Option Frame :=
  match findHandler? f.blocks f.stack with
  | none => none
  | some (handler, stack, blocks) =>
    some { f with
      stack := .exceptionType e.kind :: .exception e :: traceback :: stack
      blocks
      handled := some (e, entries)
      ip := handler }

end Frame

/-! ### Ends of a run -/

/-- Why a run is cut off. -/
inductive Fatal where
  | tooFewLocals (code : String) (slots locals : Nat)
  | callLimit (limit : Nat) (callee : String)
  | stepLimit (limit : Nat)
  | stackLimit (limit : Nat)
  | fellOff (code : String)
  | underflow (index : Nat)
  | constRange (arg : Nat)
  | nameRange (arg : Nat)
  | noDict (index : Nat)
  | unknownArith (arg : Nat)
  | unknownCompare (arg : Nat)
  | notCode (type : String)
  | badJump (index : Nat)
  | badBlock (index : Nat)
  | noBlock (index : Nat)
  | noIterator (index : Nat)
  | badRaise (arg : Nat)
deriving DecidableEq, Repr

/-- What is said about a run that is cut off. -/
def Fatal.message : Fatal → String
  | tooFewLocals code slots locals =>
    "code '" ++ code ++ "' declares " ++ Decimal.digitsOf slots ++ " parameters but has " ++
      Decimal.digitsOf locals ++ " local names"
  | callLimit limit callee =>
    "call depth limit exceeded (" ++ Decimal.digitsOf limit ++
      ") - possible infinite recursion in '" ++ callee ++ "'"
  | stepLimit limit => "execution step limit exceeded (" ++ Decimal.digitsOf limit ++ ")"
  | stackLimit limit => "stack size limit exceeded (" ++ Decimal.digitsOf limit ++ ")"
  | fellOff code => "execution fell off the end of '" ++ code ++ "'"
  | underflow index => "stack underflow at ip=" ++ Decimal.digitsOf index
  | constRange arg => "const index " ++ Decimal.digitsOf arg ++ " out of range"
  | nameRange arg => "name index " ++ Decimal.digitsOf arg ++ " out of range"
  | noDict index => "STORE_MAP without a dict at ip=" ++ Decimal.digitsOf index
  | unknownArith arg => "unknown binary operator " ++ Decimal.digitsOf arg
  | unknownCompare arg => "unknown comparison " ++ Decimal.digitsOf arg
  | notCode type => "MAKE_FUNCTION expects code, got " ++ type
  | badJump index => "bad jump target at ip=" ++ Decimal.digitsOf index
  | badBlock index => "bad block target at ip=" ++ Decimal.digitsOf index
  | noBlock index => "POP_BLOCK without a block at ip=" ++ Decimal.digitsOf index
  | noIterator index => "FOR_ITER without an iterator at ip=" ++ Decimal.digitsOf index
  | badRaise arg => "bad RAISE_VARARGS oparg " ++ Decimal.digitsOf arg

/-- Why an instruction does not lead to the next. -/
inductive Stop where
  /-- An exception with its traceback so far, outermost frame first.  When it is raised `again`,
  the traceback already has the frame that raises it. -/
  | raise (e : Exception) (entries : List TraceEntry) (again : Bool)
  | fatal (cause : Fatal)
  /-- A comparison does not come to an answer, and the machine goes down with it. -/
  | crash

/-! ### Executing -/

/-- What an instruction works on. -/
structure Moment where
  frame : Frame
  memory : Memory

/-- What an instruction does. -/
abbrev Exec := EStateM Stop Moment

namespace Exec

def frame : Exec Frame := fun m => .ok m.frame m

def store : Exec Store := fun m => .ok m.memory.store m

def setFrame (f : Frame) : Exec Unit := fun m => .ok () { m with frame := f }

def setStore (s : Store) : Exec Unit := fun m =>
  .ok () { m with memory := { m.memory with store := s } }

def fatal {α : Type} (cause : Fatal) : Exec α := fun m => .error (.fatal cause) m

/-- Goes on if a comparison comes to an answer. -/
def settle (settled : Bool) : Exec Unit := fun m =>
  if settled then .ok () m else .error .crash m

/-- Raises an exception for the first time. -/
def raise {α : Type} (e : Exception) : Exec α := fun m => .error (.raise e [] false) m

/-- Raises an exception with the traceback it has. -/
def raiseAgain {α : Type} (e : Exception) (entries : List TraceEntry) : Exec α := fun m =>
  .error (.raise e entries true) m

/-- Raises the exception that a failure becomes. -/
def fail {α : Type} (f : Failure) : Exec α := do
  let (e, s) := (← store).failed f
  setStore s
  raise e

/-- The result, or the exception that the failure becomes. -/
def orFail {α : Type} : Except Failure α → Exec α
  | .ok a => pure a
  | .error f => fail f

/-- The result, with the store it leaves, or the exception that the failure becomes. -/
def orFailWith {α : Type} : Except Failure (α × Store) → Exec α
  | .ok (a, s) => do setStore s; return a
  | .error f => fail f

def push (v : Value) : Exec Unit := fun m => .ok () { m with frame := m.frame.push v }

def pop : Exec Value := fun m =>
  match m.frame.stack with
  | v :: stack => .ok v { m with frame := { m.frame with stack } }
  | [] => .error (.fatal (.underflow (m.frame.ip - 1))) m

/-- Pops several values; the one that was pushed first is the first. -/
def popMany (n : Nat) : Exec (List Value) := fun m =>
  if m.frame.stack.length < n then .error (.fatal (.underflow (m.frame.ip - 1))) m
  else .ok (m.frame.stack.take n).reverse
    { m with frame := { m.frame with stack := m.frame.stack.drop n } }

/-- Pops a value and answers with the view of it as a condition. -/
def popCondition : Exec Bool := do
  let v ← pop
  return (← store).truthy v

end Exec

/-! ### Entering a function -/

/-- The frame of a function that is called, once its arguments are bound. -/
def FunctionOf.frame (f : Function) (b : Binding) (s : Store) : Frame × Store :=
  let c := f.code
  let named := b.params.map some ++ if c.takesRest then [some (.tuple b.rest)] else []
  let (arguments, s) :=
    if c.takesExtra then
      let (extra, s) := s.newDict (b.extra.map fun p => (.str p.1, p.2))
      (named ++ [some extra], s)
    else (named, s)
  let (names, s) := if c.flags.contains .newLocals then s.newScope [] else (f.globals, s)
  ({ code := c
     fast := arguments ++ List.replicate (c.varNames.length - arguments.length) none
     names
     globals := f.globals
     closure := f.closure }, s)

/-- Binds arguments to a function: its frame, a failure, or a reason to cut the run off. -/
def FunctionOf.bind (f : Function) (args : List Value) (kwargs : Keywords)
    (s : Store) : Except (Failure ⊕ Fatal) (Frame × Store) :=
  let c := f.code
  if c.varNames.length < c.argumentSlots then
    .error (.inr (.tooFewLocals c.name c.argumentSlots c.varNames.length))
  else
    match bindArguments c f.defaults args kwargs with
    | .ok b => .ok (f.frame b s)
    | .error e => .error (.inl e)

end Bytewright
