import Bytewright.Text.Blank

/-!
# Command-line options

The command line has one file and any number of options in any order.  An option with a value
takes it after `=` or as the next argument; a value given as the next argument does not start with
a dash, unless it is a lone dash.  After `--` nothing is an option.
-/

namespace Bytewright

/-- A parameter that is made available to the fragment. -/
structure Parameter where
  name : String
  value : Option String
deriving DecidableEq, Repr

/-- The options that are on or off. -/
structure Switches where
  expr : Bool := false
  noTrim : Bool := false
  ops : Bool := false
  dis : Bool := false
  /-- The frequencies of operation codes are printed. -/
  stats : Bool := false
  run : Bool := false
deriving DecidableEq, Repr

structure Options where
  file : String
  switches : Switches
  /-- The parameters, in order. -/
  params : List Parameter
  emit : Option String
  maxSteps : Option Nat
deriving DecidableEq, Repr

/-- Why an argument list does not ask for anything to be done. -/
inductive Usage where
  | help
  | wrong
deriving DecidableEq, Repr

namespace Options

/-- What has been read of an argument list. -/
structure Partial where
  /-- The file, once there. -/
  file : Option String := none
  switches : Switches := {}
  /-- The parameters so far, latest first. -/
  params : List Parameter := []
  /-- Where the unit is written, once there. -/
  emit : Option String := none
  /-- The most instructions, once there. -/
  maxSteps : Option Nat := none

/-- Turns an option on that is not on yet. -/
def switchOn (s : Switches) (name : List Char) : Option Switches :=
  if name = "expr".toList ∧ !s.expr then some { s with expr := true }
  else if name = "no-trim".toList ∧ !s.noTrim then some { s with noTrim := true }
  else if name = "ops".toList ∧ !s.ops then some { s with ops := true }
  else if name = "dis".toList ∧ !s.dis then some { s with dis := true }
  else if name = "stats".toList ∧ !s.stats then some { s with stats := true }
  else if name = "run".toList ∧ !s.run then some { s with run := true }
  else none

/-- A parameter as it is written: a name, or a name and an expression. -/
def parameter (cs : List Char) : Parameter :=
  let name := String.ofList (Text.trim (cs.takeWhile (· ≠ '=')))
  match cs.dropWhile (· ≠ '=') with
  | [] => ⟨name, none⟩
  | _ :: value => ⟨name, some (String.ofList value)⟩

/-- A count of machine size, written in decimal digits after an optional plus sign. -/
def count? (cs : List Char) : Option Nat :=
  let digits : List Char := match cs with
    | '+' :: rest => rest
    | _ => cs
  let n := digits.foldl (fun n c => 10 * n + (c.toNat - '0'.toNat)) (0 : Nat)
  if !digits.isEmpty ∧ digits.all Char.isDigit ∧ n < 18446744073709551616 then some n else none

/-- Gives an option its value; none is given twice, except parameters. -/
def assign (p : Partial) (name value : List Char) : Option Partial :=
  if name = "param".toList then some { p with params := parameter value :: p.params }
  else if name = "emit".toList ∧ p.emit.isNone ∧ !value.isEmpty then
    some { p with emit := some (String.ofList value) }
  else if name = "max-steps".toList ∧ p.maxSteps.isNone then
    (count? value).map fun n => { p with maxSteps := some n }
  else none

def takesValue (name : List Char) : Bool :=
  name = "param".toList || name = "emit".toList || name = "max-steps".toList

/-- The file, if it is the first one and has a name. -/
def place (p : Partial) (file : List Char) : Option Partial :=
  if p.file.isNone ∧ !file.isEmpty then some { p with file := some (String.ofList file) } else none

/-- An argument that can be the value of the option before it. -/
def isOperand : List Char → Bool
  | '-' :: _ :: _ => false
  | _ => true

def orWrong (p : Option Partial) : Except Usage Partial :=
  match p with
  | some p => .ok p
  | none => .error .wrong

def readFiles (p : Partial) : List (List Char) → Except Usage Partial
  | [] => .ok p
  | file :: rest => do readFiles (← orWrong (place p file)) rest

/-- Reads arguments one by one; the first mistake or request for help counts. -/
def read (p : Partial) : List (List Char) → Except Usage Partial
  | [] => .ok p
  | ['-', '-'] :: rest => readFiles p rest
  | ('-' :: '-' :: option) :: rest =>
    let name := option.takeWhile (· ≠ '=')
    match option.dropWhile (· ≠ '=') with
    | _ :: value => do read (← orWrong (assign p name value)) rest
    | [] =>
      if takesValue name then
        match rest with
        | value :: rest =>
          if isOperand value then do read (← orWrong (assign p name value)) rest
          else .error .wrong
        | [] => .error .wrong
      else if name = "help".toList then .error .help
      else do
        let switches ← match switchOn p.switches name with
          | some s => pure s
          | none => throw .wrong
        read { p with switches } rest
  | ('-' :: 'h' :: _) :: _ => .error .help
  | ('-' :: _ :: _) :: _ => .error .wrong
  | file :: rest => do read (← orWrong (place p file)) rest

def parse (args : List String) : Except Usage Options := do
  let p ← read {} (args.map String.toList)
  match p.file with
  | some file => return ⟨file, p.switches, p.params.reverse, p.emit, p.maxSteps⟩
  | none => throw .wrong

end Options

end Bytewright
