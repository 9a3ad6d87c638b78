import Bytewright.Stream.Op

/-!
# Resolving dynamic names

A stream whose names are looked up dynamically is made fit to run as a function.  A name that is
stored anywhere is a fast local; a name that may be given as an argument is loaded as a fast
local; every other name is global.  Available names that are loaded before they are stored have to
become parameters.
-/

namespace Bytewright

namespace Scope

/-- The names that a stream stores dynamically. -/
def stored (ops : Stream) : List String :=
  ops.filterMap fun
    | .name .storeName x => some x
    | _ => none

/-- The resolved form of an operation, given the names that are available and those that are
stored. -/
def resolve (available stored : List String) : Op → Op
  | .name .storeName x => .name .storeFast x
  | .name .loadName x =>
    if available.contains x || stored.contains x then .name .loadFast x else .name .loadGlobal x
  | .name .deleteName x =>
    if stored.contains x then .name .deleteFast x else .name .deleteGlobal x
  | op => op

/-- The available names that are loaded with no store before, once each, in order of first load.
The names in `settled` have been stored or taken already. -/
def required (available settled : List String) : Stream → List String
  | [] => []
  | .name .storeName x :: ops => required available (x :: settled) ops
  | .name .loadName x :: ops =>
    if available.contains x && !settled.contains x then
      x :: required available (x :: settled) ops
    else required available settled ops
  | _ :: ops => required available settled ops

end Scope

/-- The parameters that a stream requires when the given names are available, and the stream with
all dynamic names resolved. -/
def resolveNames (available : List String) (ops : Stream) : List String × Stream :=
  (Scope.required available [] ops, ops.map (Scope.resolve available (Scope.stored ops)))

end Bytewright
