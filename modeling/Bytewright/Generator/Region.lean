import Bytewright.Generator.Basic

/-!
# Regions

A region puts operations around what a body emits.  Its closing bracket is emitted even when the
body fails; the failure is passed on afterwards.
-/

namespace Bytewright.Generator

/-- Emits a body between two streams, the second one also when the body fails. -/
def bracket (opening closing : Stream) (body : Emit Unit) : Emit Unit := fun g =>
  match body (g.append opening) with
  | .ok _ g => .ok () (g.append closing)
  | .error e g => .error e (g.append closing)

/-- What closes a region that squashes exceptions: the handler drops the traceback and raises the
exception anew. -/
def squashClosing (handler done : Label) : Stream :=
  [.bare .popBlock, .jump .jumpForward done,
   .mark handler,            -- tb val exc
   .bare .rotThree,          -- exc tb val
   .bare .rotTwo,            -- exc val tb
   .bare .popTop,            -- exc val
   .count .raiseVarargs 2,
   .jump .jumpForward done, .bare .endFinally,
   .mark done]

/-- Emits a body whose exceptions are raised anew from this frame, without the frames of what the
body called. -/
def trySquashRaise (body : Emit Unit) : Emit Unit := do
  let handler ← newLabel
  let done ← newLabel
  bracket [.jump .setupExcept handler] (squashClosing handler done) body

/-- Emits a body that runs for each item of the sequence in a variable, a fast local or a global.
The body starts with the item on the stack and has to take it off. -/
def forLoop (variableName : String) (fast : Bool) (body : Emit Unit) : Emit Unit := do
  let start ← newLabel
  let exhausted ← newLabel
  let done ← newLabel
  bracket
    [.jump .setupLoop done, .name (if fast then .loadFast else .loadGlobal) variableName,
     .bare .getIter, .mark start, .jump .forIter exhausted]
    [.jump .jumpAbsolute start, .mark exhausted, .bare .popBlock, .mark done]
    body

end Bytewright.Generator
