import Bytewright.Machine.Equality
import Bytewright.Machine.Hook
import Bytewright.Number.Checked

/-!
# Operations on values

Attributes, items, arithmetic and comparison.
-/

namespace Bytewright

namespace Store

/-! ### Attributes -/

def attr (s : Store) (obj : Value) (name : String) : Except Failure (Value × Store) :=
  let found : Option (Value × Store) :=
    match obj with
    | .space r => ((s.scope r).get? name).map (·, s)
    | .exception e => if name == "args" then some (.tuple e.args, s) else none
    | .function f => if name == "__name__" then some (.str f.code.name, s) else none
    | .code _ unit => if name == "co_name" then some (.str unit.name, s) else none
    | .hook h => (h.kind.call? name).map (s.newMethod h)
    | _ => none
  match found with
  | some result => .ok result
  | none => .error (.noAttribute obj.typeName name)

/-- Sets an attribute; only name spaces have any to set. -/
def setAttr (s : Store) (obj : Value) (name : String) (v : Value) : Except Failure Store :=
  match obj with
  | .space r => .ok (s.bindName r name v)
  | _ => .error (.noAttribute obj.typeName name)

end Store

/-! ### Items -/

/-- The position that a key stands for among `length` items; a negative one counts from the end. -/
def position (what : Indexed) (length : Nat) (key : Value) : Except Failure Nat :=
  match key.asInt? with
  | none => .error (.indexType what key.typeName)
  | some i =>
    let i := if i.toInt < 0 then i.toInt + length else i.toInt
    if 0 ≤ i ∧ i < length then .ok i.toNat else .error (.indexOutOfRange what)

/-- The item at the position that a key stands for. -/
def itemAt (what : Indexed) (items : List Value) (key : Value) : Except Failure Value := do
  let i ← position what items.length key
  match items[i]? with
  | some v => .ok v
  | none => .error (.indexOutOfRange what)

def findPair? (same : Value → Value → Bool) (key : Value) (pairs : List (Value × Value)) :
    Option Value :=
  (pairs.find? fun p => same p.1 key).map Prod.snd

/-- The map with a key set to a value.  A key that is there keeps its place and its form. -/
def insertPair (same : Value → Value → Bool) (key v : Value) :
    List (Value × Value) → List (Value × Value)
  | [] => [(key, v)]
  | p :: rest => if same p.1 key then (p.1, v) :: rest else p :: insertPair same key v rest

namespace Store

/-- The item of a value at a position or key. -/
def item (s : Store) (obj key : Value) : Except Failure Value :=
  match obj with
  | .tuple items => itemAt .tuple items key
  | .list r => itemAt .list (s.list r) key
  | .str t => itemAt .string (t.toList.map fun c => .str c.toString) key
  | .dict r =>
    match findPair? s.equals key (s.dict r) with
    | some v => .ok v
    | none => .error (.missingKey key)
  | .space r =>
    match key with
    | .str name =>
      match (s.scope r).get? name with
      | some v => .ok v
      | none => .error (.missingKey key)
    | _ => .error (.missingKey key)
  | _ => .error (.notSubscriptable obj.typeName)

def setPair (s : Store) (r : DictRef) (key v : Value) : Store :=
  s.setDict r (insertPair s.equals key v (s.dict r))

/-- The search for a key among the pairs of a map comes to an answer. -/
def searchSettles (s : Store) (held : Option DictRef) (key : Value) : List (Value × Value) → Bool
  | [] => true
  | p :: rest => s.settles held p.1 key && (s.equals p.1 key || searchSettles s held key rest)

/-- The item of a value is found or missed. -/
def itemSettles (s : Store) (obj key : Value) : Bool :=
  match obj with
  | .dict r => s.searchSettles none key (s.dict r)
  | _ => true

/-- The map is held for the change while its keys are compared with the new one. -/
def pairSettles (s : Store) (r : DictRef) (key : Value) : Bool :=
  s.searchSettles (some r) key (s.dict r)

/-- Sets the item of a value at a position or key. -/
def setItem (s : Store) (obj key v : Value) : Except Failure Store :=
  match obj with
  | .list r => do
    let i ← position .list (s.list r).length key
    return s.setList r ((s.list r).set i v)
  | .dict r => .ok (s.setPair r key v)
  | .space r =>
    match key with
    | .str name => .ok (s.bindName r name v)
    | _ => .error (.spaceKeyType key.typeName)
  | _ => .error (.noItemAssignment obj.typeName)

/-- The place of an item is found. -/
def setItemSettles (s : Store) (obj key : Value) : Bool :=
  match obj with
  | .dict r => s.pairSettles r key
  | _ => true

end Store

/-! ### Operators -/

/-- An operator on integers: the exact result, or a failure. -/
def ArithOp.onInts (op : ArithOp) (x y : Int64) : Except Failure Int64 :=
  let exact : Option Int64 → Except Failure Int64
    | some n => .ok n
    | none => .error .overflow
  match op with
  | add => exact (Checked.add? x y)
  | subtract => exact (Checked.sub? x y)
  | multiply => exact (Checked.mul? x y)
  | divide => if y = 0 then .error .divisionByZero else exact (Checked.div? x y)
  | modulo => if y = 0 then .error .divisionByZero else exact (Checked.mod? x y)

/-- The remainder of floating-point numbers with the sign of the divisor. -/
def floatModulo (x y : Binary64) : Binary64 :=
  let r := x.rem y
  if (r.isNaN || !r.isZero) && r.isBelowZero != y.isBelowZero then r.add y else r

def ArithOp.onFloats (op : ArithOp) (x y : Binary64) : Except Failure Binary64 :=
  match op with
  | add => .ok (x.add y)
  | subtract => .ok (x.sub y)
  | multiply => .ok (x.mul y)
  | divide => if y.isZero then .error .floatDivisionByZero else .ok (x.div y)
  | modulo => if y.isZero then .error .floatModuloByZero else .ok (floatModulo x y)

namespace Store

/-- An arithmetic operator: on integers exactly, on other numbers in floating point, and addition
also joins texts, tuples and lists. -/
def arith (s : Store) (op : ArithOp) (a b : Value) : Except Failure (Value × Store) :=
  match a.asInt?, b.asInt? with
  | some x, some y => (op.onInts x y).map fun n => (.int n, s)
  | _, _ =>
    match a.asFloat?, b.asFloat? with
    | some x, some y => (op.onFloats x y).map fun r => (.float r, s)
    | _, _ =>
      match op, a, b with
      | .add, .str x, .str y => .ok (.str (x ++ y), s)
      | .add, .tuple x, .tuple y => .ok (.tuple (x ++ y), s)
      | .add, .list x, .list y => .ok (s.newList (s.list x ++ s.list y))
      | _, _, _ => .error (.operandTypes op a.typeName b.typeName)

end Store

def Value.negate (v : Value) : Except Failure Value :=
  match v with
  | .float x => .ok (.float x.neg)
  | _ =>
    match v.asInt? with
    | .none => .error (.negationType v.typeName)
    | some n =>
      match Checked.neg? n with
      | some m => .ok (.int m)
      | .none => .error .negationOverflow

/-- The order of two values; `some none` if they are unordered numbers. -/
def Value.order? (a b : Value) : Option (Option Ordering) :=
  match a, b with
  | .str x, .str y => some (some (Ord.compare x y))
  | _, _ =>
    match a.asInt?, b.asInt? with
    | some x, some y => some (some (Ord.compare x.toInt y.toInt))
    | _, _ =>
      match a.asFloat?, b.asFloat? with
      | some x, some y => some (x.compare? y)
      | _, _ => .none

/-- A comparison.  Equality is total; an order with an unordered number does not hold. -/
def Store.compare (s : Store) (op : CompareOp) (a b : Value) : Except Failure Bool :=
  match op with
  | .eq => .ok (s.equals a b)
  | .ne => .ok (!s.equals a b)
  | _ =>
    match a.order? b with
    | none => .error (.unorderable op a.typeName b.typeName)
    | some none => .ok false
    | some (some o) => .ok (op.holds o)

/-- Orders look at numbers and texts alone. -/
def Store.compareSettles (s : Store) (op : CompareOp) (a b : Value) : Bool :=
  match op with
  | .eq | .ne => s.settles none a b
  | _ => true

end Bytewright
