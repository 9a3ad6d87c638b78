import Bytewright.Stream.Tracing

/-!
# Inversion

An expression that ends in a load is turned into a store: the final load is replaced by a call of
the inverter's method of the same name, which is given the operands of the load and the value to
store.  Inverter and value are read from reserved fast locals.
-/

namespace Bytewright

namespace Inversion

def inverterSlot : String := "_[inverter]"

/-- The fast local that holds the value to store. -/
def valueSlot : String := "_[value]"

def method (name : String) : Stream := [.name .loadFast inverterSlot, .name .loadAttr name]

def value : Op := .name .loadFast valueSlot

/-- What takes the place of a final load; `alone` says that it is the whole expression. -/
def replace? (alone : Bool) : Op → Option Stream
  | .name .loadName x =>
    if alone then some (method "load_name" ++ [.const (.str x), value, plainCall 2]) else none
  | .name .loadAttr attr =>
    some (method "load_attr" ++ [.bare .rotTwo, .const (.str attr), value, plainCall 3])
  | .call .callFunction args kwds =>
    some (.count .buildTuple (flatCount args kwds) :: method "call_function" ++
      [.bare .rotThree, .const (argSpecConst args kwds), value, plainCall 4])
  | .bare .binarySubscr =>
    some (method "binary_subscr" ++ [.bare .rotThree, value, plainCall 3])
  | _ => none

def isLine : Op → Bool
  | .line _ => true
  | _ => false

/-- The operations without the line markers at their end, latest first. -/
def dropLines (latestFirst : Stream) : Stream := latestFirst.dropWhile isLine

/-- The final load of a stream that ends by returning it, and what comes before it, latest
first. -/
def finalLoad? (ops : Stream) : Option (Op × Stream) :=
  match dropLines ops.reverse with
  | .bare .returnValue :: earlier =>
    match dropLines earlier with
    | load :: earlier => some (load, earlier)
    | [] => none
  | _ => none

end Inversion

open Inversion in
/-- A stream that stores into what the given stream loads last. -/
def injectInversion (ops : Stream) : Except AssembleError Stream :=
  match finalLoad? ops with
  | none => .error (.notInvertible .noReturn)
  | some (load, earlier) =>
    match replace? (earlier.all isLine) load with
    | some store => .ok (earlier.reverse ++ store ++ [.bare .returnValue])
    | none => .error (.notInvertible (.op load))

end Bytewright
