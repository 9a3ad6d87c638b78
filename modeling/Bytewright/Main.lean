import Bytewright.CommandLine.Directory
import Bytewright.CommandLine.Report

/-!
# The command line

Reads the file, writes the encoded unit where it is asked for, and prints the reports.
-/

namespace Bytewright.CommandLine

/-- More instructions than any run gets through. -/
def endless : Nat := 4611686018427387904

def reasonOf : IO.Error → String
  | e@(.noFileOrDirectory _ code _) | e@(.permissionDenied _ code _)
  | e@(.inappropriateType _ code _) | e@(.invalidArgument _ code _) =>
    ((PathFault.ofNumber? code.toNat).map PathFault.message).getD (toString e)
  | e => toString e

/-- The text of a file, or why there is none. -/
def readSource (path : String) : IO (Except String String) := do
  try
    let bytes ← IO.FS.withFile path .read fun h => h.readBinToEnd
    return textOf bytes.toList
  catch e => return .error (reasonOf e)

/-- Writes bytes to a file, or says why it cannot be done. -/
def writeBytes (path : String) (bytes : Binary.Bytes) : IO (Option String) := do
  try
    IO.FS.writeBinFile path (ByteArray.mk bytes.toArray)
    return none
  catch e => return some (reasonOf e)

end Bytewright.CommandLine

open Bytewright Bytewright.CommandLine in
def main (args : List String) : IO UInt32 := do
  match Options.parse args with
  | .error .help =>
    IO.println "Usage: kiln [OPTIONS] <FILE>"
    return 0
  | .error .wrong =>
    IO.eprintln "Usage: kiln [OPTIONS] <FILE>"
    return 2
  | .ok o =>
    let report ← perform endless o writeBytes (← readSource o.file)
    IO.print report.output
    for message in report.messages do
      IO.eprintln message
    return report.status
