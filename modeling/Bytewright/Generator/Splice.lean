import Bytewright.Generator.Basic

/-!
# Splicing fragments

The code of a fragment is compiled on its own and spliced into the stream, either as it is or
without the frame that compiling on its own put around it.
-/

namespace Bytewright.Generator

/-- A stream without the frame of its mode: a suite opens with a line marker and ends by returning
`None`, an expression ends with a return. -/
def trimFrame (mode : Mode) (ops : Stream) : Except FrameFault Stream :=
  match mode with
  | .statements =>
    match ops with
    | .line _ :: rest =>
      match rest.reverse with
      | .bare .returnValue :: .const .none :: body => .ok body.reverse
      | _ => .error .noReturnNone
    | _ => .error .noLineMarker
  | .expression =>
    match ops.reverse with
    | .bare .returnValue :: body => .ok body.reverse
    | _ => .error .noReturn

/-- Splices the code of a fragment, without its frame if `trim` is set.  Labels that were handed
out for the code stay handed out when splicing fails. -/
def insert (fragment : Fragment) (mode : Mode) (trim : Bool) : Emit Unit := fun g =>
  match g.compiler fragment g.fileName mode with
  | .error e => .error (.fragmentSyntax g.fileName mode e) g
  | .ok c =>
    match c.toStream g.labels with
    | (.error e, labels) => .error (.malformedFragment mode (.undecodable e)) { g with labels }
    | (.ok ops, labels) =>
      match if trim then trimFrame mode ops else .ok ops with
      | .error fault => .error (.malformedFragment mode fault) { g with labels }
      | .ok ops => .ok () { g with labels, ops := g.ops ++ ops }

/-- Splices a suite. `( -- )` -/
def insertBlock (fragment : Fragment) (trim : Bool) : Emit Unit := insert fragment .statements trim

/-- Splices an expression. `( -- value )` -/
def insertExpr (fragment : Fragment) (trim : Bool) : Emit Unit := insert fragment .expression trim

end Bytewright.Generator
