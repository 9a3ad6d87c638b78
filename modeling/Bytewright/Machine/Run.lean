import Bytewright.Machine.Step

/-!
# Runs

A run is a frame together with the frames that wait for it.  It advances by one instruction at a
time, within limits, until it has an outcome.  An exception leaves frames one by one until one of
them handles it, and each frame it leaves adds a line to the traceback.
-/

namespace Bytewright

/-- How far a run may go. -/
structure Limits where
  callDepth : Nat := 1000
  /-- The most instructions, if limited. -/
  steps : Option Nat := none
  stackSize : Nat := 10000
deriving DecidableEq, Repr

/-- How a run ends. -/
inductive Outcome where
  | value (v : Value)
  /-- An exception left all frames; its traceback has the outermost frame first. -/
  | raised (e : Exception) (entries : List TraceEntry)
  /-- The run was cut off while the named frames were active, innermost first. -/
  | fatal (cause : Fatal) (active : List String)
  /-- The machine went down, and the run does not come back. -/
  | crashed

def Outcome.text (s : Store) : Outcome → String
  | .value v => s.text v
  | .raised e entries =>
    "Traceback (most recent call last):\n" ++
      String.join (entries.map fun t =>
        "  File \"" ++ t.fileName ++ "\", line " ++ Decimal.digitsOf t.line.toNat ++ ", in " ++
          t.name ++ "\n") ++ s.exceptionText e
  | .fatal cause active =>
    "runtime error: " ++ cause.message ++
      if active.isEmpty then "" else
        "\n  call stack:" ++ String.join (active.zipIdx.map fun p =>
          "\n    " ++ Decimal.digitsOf p.2 ++ ": " ++ p.1)
  | .crashed => "crashed"

/-! ### Runs -/

/-- A run that has not ended. -/
structure Run where
  frame : Frame
  /-- The frames that wait for it, innermost first. -/
  callers : List Frame := []
  steps : Nat := 0
  memory : Memory

inductive Progress where
  | running (r : Run)
  | ended (o : Outcome) (m : Memory)

namespace Run

/-- The names of the active frames, innermost first. -/
def active (r : Run) : List String := (r.frame :: r.callers).map (·.code.name)

def cutOff (r : Run) (cause : Fatal) : Progress := .ended (.fatal cause r.active) r.memory

/-- An exception on its way out of frames, the first of which was executing the instruction at
`index`.  It ends at the first frame with a handler. -/
def unwind (e : Exception) (steps : Nat) (m : Memory) (frame : Frame) (callers : List Frame)
    (index : Nat) (entries : List TraceEntry) (again : Bool) : Progress :=
  let entries := if again then entries else frame.entry index :: entries
  let (traceback, store) := m.store.newTraceback entries
  match frame.enterHandler? e entries traceback with
  | some frame => .running { frame, callers, steps, memory := { m with store } }
  | none =>
    match callers with
    | [] => .ended (.raised e entries) m
    | caller :: callers => unwind e steps m caller callers (caller.ip - 1) entries false

def enter (limits : Limits) (r : Run) (callee : Frame) : Progress :=
  if limits.callDepth ≤ r.callers.length + 1 then
    r.cutOff (.callLimit limits.callDepth callee.code.name)
  else .running { r with frame := callee, callers := r.frame :: r.callers }

def leave (r : Run) (v : Value) : Progress :=
  match r.callers with
  | [] => .ended (.value v) r.memory
  | caller :: callers => .running { r with frame := caller.push v, callers }

/-- The limit that a run, on its way to an instruction, has passed. -/
def passedLimit? (limits : Limits) (r : Run) : Option Fatal :=
  let tooLong := match limits.steps with
    | some n => if n < r.steps then some (Fatal.stepLimit n) else none
    | none => none
  tooLong.or (if limits.stackSize < r.frame.stack.length then some (.stackLimit limits.stackSize)
    else none)

/-- One instruction. -/
def advance (limits : Limits) (r : Run) : Progress :=
  let index := r.frame.ip
  match r.frame.code.code[index]? with
  | none => r.cutOff (.fellOff r.frame.code.name)
  | some ins =>
    let r := { r with steps := r.steps + 1 }
    match r.passedLimit? limits with
    | some cause => r.cutOff cause
    | none =>
      match execute ins index ⟨{ r.frame with ip := index + 1 }, r.memory⟩ with
      | .ok signal m =>
        let r := { r with frame := m.frame, memory := m.memory }
        match signal with
        | .next => .running r
        | .ret v => r.leave v
        | .call callee => r.enter limits callee
      | .error (.raise e entries again) m =>
        unwind e r.steps m.memory m.frame r.callers index entries again
      | .error (.fatal cause) m => { r with memory := m.memory }.cutOff cause
      | .error .crash m => .ended .crashed m.memory

/-- As many instructions as there is fuel for. -/
def go (limits : Limits) : Nat → Run → Option (Outcome × Memory)
  | 0, _ => none
  | fuel + 1, r =>
    match r.advance limits with
    | .running r => go limits fuel r
    | .ended o m => some (o, m)

end Run

/-! ### The machine -/

/-- An interpreter with its global names. -/
structure Machine where
  /-- How far runs may go. -/
  limits : Limits := {}
  globals : ScopeRef := ⟨0⟩
  memory : Memory := { store := { scopes := #[[]] } }

namespace Machine

def getGlobal? (m : Machine) (x : String) : Option Value :=
  (m.memory.store.scope m.globals).get? x

def setStore (m : Machine) (s : Store) : Machine :=
  { m with memory := { m.memory with store := s } }

def setGlobal (m : Machine) (x : String) (v : Value) : Machine :=
  m.setStore (m.memory.store.bindName m.globals x v)

/-- How a call ends, and the memory it leaves, if it ends before the fuel does. -/
def callResult (fuel : Nat) (m : Machine) (f : Value) (args : List Value)
    (kwargs : Keywords) : Option (Outcome × Memory) :=
  match f with
  | .function f =>
    match f.bind args kwargs m.memory.store with
    | .ok (frame, store) =>
      if m.limits.callDepth = 0 then
        some (.fatal (.callLimit m.limits.callDepth frame.code.name) [], m.memory)
      else Run.go m.limits fuel { frame, memory := { m.memory with store } }
    | .error (.inl failure) =>
      let (e, store) := m.memory.store.failed failure
      some (.raised e [], { m.memory with store })
    | .error (.inr cause) => some (.fatal cause [], m.memory)
  | _ =>
    match Memory.callValue m.globals f args kwargs m.memory with
    | .ok v memory => some (.value v, memory)
    | .error failure memory =>
      let (e, store) := memory.store.failed failure
      some (.raised e [], { memory with store })

/-- Calls a value. -/
def call (fuel : Nat) (m : Machine) (f : Value) (args : List Value)
    (kwargs : Keywords) : Option (Outcome × Machine) :=
  (m.callResult fuel f args kwargs).map fun p => (p.1, { m with memory := p.2 })

/-- Runs a code unit without arguments. -/
def run (fuel : Nat) (m : Machine) (c : Code) : Option (Outcome × Machine) :=
  let (f, store) := m.memory.store.newFunction c [] m.globals []
  (m.setStore store).call fuel (.function f) [] []

end Machine

end Bytewright
