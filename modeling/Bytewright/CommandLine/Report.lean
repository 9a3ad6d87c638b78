import Bytewright.Code.Binary
import Bytewright.Code.Listing
import Bytewright.CommandLine.Options
import Bytewright.Generator.Splice
import Bytewright.Machine.Run
import Bytewright.Text.Terminal

/-!
# What the command line does

The work has two halves: the unit is assembled and shown, and the unit is run.  Between them the
encoded unit may be written to a file, which is left to the caller.  Each half leaves a report.
-/

namespace Bytewright

/-- What is printed, and whether all went well. -/
structure Report where
  output : String := ""
  /-- What goes to standard error, message by message. -/
  messages : List String := []
  succeeded : Bool := true
deriving DecidableEq, Repr

namespace Report

def status (r : Report) : UInt32 := if r.succeeded then 0 else 1

def append (a b : Report) : Report :=
  ⟨a.output ++ b.output, a.messages ++ b.messages, a.succeeded && b.succeeded⟩

instance : Append Report := ⟨append⟩

/-- A report of output, if it is wanted. -/
def printIf (wanted : Bool) (text : String) : Report := { output := if wanted then text else "" }

/-- A message of the program itself, which may quote any text. -/
def logged (level text : String) : String := level ++ " kiln: " ++ Text.harmless text

def info (text : String) : Report := { messages := [logged "INFO" text] }

def warning (text : String) : Report := { messages := [logged "WARN" text] }

def error (text : String) : Report := { messages := [logged "ERROR" text], succeeded := false }

end Report

namespace CommandLine

/-! ### Assembling -/

def unitName : String := "<fragment>"

/-- Emits the fragment and, where its framing is taken off, the return. -/
def emitFragment (o : Options) (source : String) : Emit Unit := do
  let trim := !o.switches.noTrim
  if o.switches.expr then
    Generator.insertExpr (.source source) trim
    if trim then Generator.push (.bare .returnValue)
  else
    Generator.insertBlock (.source source) trim
    if trim then Generator.extend [.const .none, .bare .returnValue]

/-- Resolves names when there are parameters: the declared header, and what there is to report.
The parameters of the unit are those that the fragment reads, in the order of first reading. -/
def resolve (o : Options) : Emit (Header × Report) := do
  let header : Header := { name := unitName, firstLine := 1 }
  if o.params.isEmpty then return (header, {})
  else
    let names := o.params.map (·.name)
    let required ← Generator.resolveNames names
    let unused := names.filter fun x => !required.contains x
    let report := Report.info
      ("rewrote names to fast locals required=" ++ Text.quotedList required)
    let report := unused.foldl (fun r x => r ++ Report.warning
      ("parameter '" ++ x ++ "' is never read before assignment; ignoring it")) report
    return ({ header with args := required, newLocals := true }, report)

def assembleFile (o : Options) (source : String) : Report × Option Code :=
  match (do emitFragment o source; resolve o : Emit (Header × Report)) { fileName := o.file } with
  | .error e _ => (Report.error e.message, none)
  | .ok (header, report) g =>
    let report := report ++ Report.printIf o.switches.ops (Dump.stream g.ops)
    match g.toCode header with
    | .error e => (report ++ Report.error e.message, none)
    | .ok code =>
      let note := Report.info ("assembled name=" ++ code.name ++ " instructions=" ++
        Decimal.digitsOf code.code.length ++ " stacksize=" ++
        Decimal.digitsOf code.stackSize.toNat)
      (report ++ note ++ Report.printIf o.switches.dis (Listing.unit code) ++
        Report.printIf o.switches.stats (Listing.countTable code), some code)

/-- The report of a file that cannot be read. -/
def unreadable (o : Options) (reason : String) : Report :=
  Report.error ("Failed to read '" ++ o.file ++ "': " ++ reason)

/-- The report of a write, which may have failed. -/
def written (path : String) (size : Nat) : Option String → Report
  | none => Report.info ("wrote " ++ Decimal.digitsOf size ++ " bytes to " ++ path)
  | some reason => Report.error ("Failed to write '" ++ path ++ "': " ++ reason)

/-! ### Running -/

/-- The value of an expression, or what went wrong. -/
def evaluate (fuel : Nat) (m : Machine) (source : String) :
    Option (Except String Value × Machine) :=
  let unit : Except AssembleError Code :=
    match Generator.insertExpr (.source source) false { fileName := "<param>" } with
    | .error e _ => .error e
    | .ok _ g => g.toCode { name := "<param>" }
  match unit with
  | .error e => some (.error e.message, m)
  | .ok code =>
    match m.run fuel code with
    | none => none
    | some (.value v, m) => some (.ok v, m)
    | some (outcome, m) => some (.error (outcome.text m.memory.store), m)

/-- The values of the parameters of a unit, in order; one that has no expression is `none`. -/
def arguments (fuel : Nat) (params : List Parameter) (m : Machine) :
    List String → Option (Except (String × String) (List Value) × Machine)
  | [] => some (.ok [], m)
  | x :: rest => do
    let (v, m) ← match (params.find? (·.name == x)).bind (·.value) with
      | some source => evaluate fuel m source
      | none => some (.ok .none, m)
    match v with
    | .error reason => return (.error (x, reason), m)
    | .ok v =>
      let (vs, m) ← arguments fuel params m rest
      return (vs.map (v :: ·), m)

/-- A run of the unit; nothing if it outlasts the fuel. -/
def runUnit (fuel : Nat) (o : Options) (code : Code) : Option Report := do
  let machine : Machine := { limits := { steps := o.maxSteps } }
  let (args, m) ← arguments fuel o.params machine code.params
  match args with
  | .error (x, reason) =>
    return Report.error ("Bad value for parameter '" ++ x ++ "': " ++ reason)
  | .ok args =>
    let (f, store) := m.memory.store.newFunction code [] m.globals []
    let (outcome, m) ← (m.setStore store).call fuel (.function f) args []
    let text := outcome.text m.memory.store
    match outcome with
    | .value _ => return { output := text ++ "\n" }
    | _ => return { messages := [text], succeeded := false }

/-! ### Both -/

/-- All that the options ask for.  `write` answers with the reason why a path cannot be written. -/
def perform {μ : Type → Type} [Monad μ] (fuel : Nat) (o : Options)
    (write : String → Binary.Bytes → μ (Option String)) (source : Except String String) :
    μ Report := do
  match source with
  | .error reason => return unreadable o reason
  | .ok source =>
    match assembleFile o source with
    | (report, none) => return report
    | (report, some code) =>
      let report ← match o.emit with
        | none => pure report
        | some path =>
          let bytes := code.toBytes
          pure (report ++ written path bytes.length (← write path bytes))
      if report.succeeded && o.switches.run then
        return report ++ (runUnit fuel o code).getD { succeeded := false }
      else return report

end CommandLine

end Bytewright
