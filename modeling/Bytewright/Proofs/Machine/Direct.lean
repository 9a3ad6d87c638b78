import Mathlib
import Bytewright.Machine.Run

/-!
# The machine with direct accesses

Slots, names and items are read and written by their index without looking whether there is one, and
quotients, remainders and negative indices are corrected by additions of words.  Each such access
says whether it goes wrong; all else is taken from the machine.
-/

namespace Bytewright

/-- The ways in which an unchecked access or operation goes wrong. -/
inductive Slip where
  | index (i length : Nat)
  | slice (stop length : Nat)
  | below (a b : Nat)
  | zeroDivisor
  | overflow (n : Int)
deriving DecidableEq, Repr

abbrev Direct := Except Slip

namespace Direct

variable {α : Type}

/-! ### Accesses -/

def read (xs : List α) (i : Nat) : Direct α :=
  match xs[i]? with
  | some x => .ok x
  | none => .error (.index i xs.length)

def write (xs : List α) (i : Nat) (x : α) : Direct (List α) :=
  if i < xs.length then .ok (xs.set i x) else .error (.index i xs.length)

def slice (xs : List α) (stop : Nat) : Direct (List α) :=
  if stop ≤ xs.length then .ok (xs.take stop) else .error (.slice stop xs.length)

def minus (a b : Nat) : Direct Nat := if b ≤ a then .ok (a - b) else .error (.below a b)

def word (n : Int) : Direct Int64 :=
  match Checked.narrow? n with
  | some w => .ok w
  | none => .error (.overflow n)

/-! ### Words -/

def rem (x y : Int64) : Direct Int64 := do
  if y = 0 then .error .zeroDivisor
  else
    let _ ← word (x.toInt.tdiv y.toInt)
    word (x.toInt.tmod y.toInt)

def truncated? (x y : Int64) : Option Int64 :=
  if y = 0 then none else Checked.narrow? (x.toInt.tdiv y.toInt)

def quotient (x y : Int64) : Direct (Option Int64) := do
  match truncated? x y with
  | none => return none
  | some q =>
    if (← rem x y) ≠ 0 ∧ (x.toInt < 0) ≠ (y.toInt < 0) then return some (← word (q.toInt - 1))
    else return some q

def remainder (x y : Int64) : Direct (Option Int64) := do
  match truncated? x y with
  | none => return none
  | some _ =>
    let r ← rem x y
    if r ≠ 0 ∧ (r.toInt < 0) ≠ (y.toInt < 0) then return some (← word (r.toInt + y.toInt))
    else return some r

def onInts (op : ArithOp) (x y : Int64) : Direct (Except Failure Int64) :=
  let exact : Option Int64 → Except Failure Int64
    | some n => .ok n
    | none => .error .overflow
  match op with
  | .divide => if y = 0 then return .error .divisionByZero else return exact (← quotient x y)
  | .modulo => if y = 0 then return .error .divisionByZero else return exact (← remainder x y)
  | _ => return op.onInts x y

def arith (s : Store) (op : ArithOp) (a b : Value) : Direct (Except Failure (Value × Store)) := do
  match a.asInt?, b.asInt? with
  | some x, some y => return (← onInts op x y).map fun n => (.int n, s)
  | _, _ => return s.arith op a b

/-! ### Items -/

def position (what : Indexed) (length : Nat) (key : Value) : Direct (Except Failure Nat) := do
  match key.asInt? with
  | none => return .error (.indexType what key.typeName)
  | some i =>
    let i ← if i.toInt < 0 then word (i.toInt + (Int64.ofNat length).toInt) else pure i
    if i.toInt < 0 ∨ (length : Int) ≤ i.toInt then return .error (.indexOutOfRange what)
    else return .ok i.toInt.toNat

def itemAt (what : Indexed) (items : List Value) (key : Value) : Direct (Except Failure Value) := do
  match ← position what items.length key with
  | .ok i => return .ok (← read items i)
  | .error e => return .error e

def item (s : Store) (obj key : Value) : Direct (Except Failure Value) :=
  match obj with
  | .tuple items => itemAt .tuple items key
  | .list r => itemAt .list (s.list r) key
  | .str t => itemAt .string (t.toList.map fun c => .str c.toString) key
  | _ => return s.item obj key

def setItem (s : Store) (obj key v : Value) : Direct (Except Failure Store) := do
  match obj with
  | .list r =>
    match ← position .list (s.list r).length key with
    | .ok i => return .ok (s.setList r (← write (s.list r) i v))
    | .error e => return .error e
  | _ => return s.setItem obj key v

/-! ### Arguments -/

def pairs : List Value → Direct (Except Failure Keywords)
  | [] => return .ok []
  | v :: rest => do
    let pair := v :: rest.take 1
    match ← read pair 0 with
    | .str key =>
      let w ← read pair 1
      return (← pairs (rest.drop 1)).map ((key, w) :: ·)
    | _ => return .error .keywordNotText
termination_by values => values.length
decreasing_by
  rw [List.length_drop, List.length_cons]
  omega

def keywords (c : Code) : Keywords → List (Option Value) → Keywords →
    Direct (Except Failure (List (Option Value) × Keywords))
  | [], fast, extra => return .ok (fast, extra.reverse)
  | (key, v) :: more, fast, extra => do
    match (← slice c.varNames c.argCount.toNat).findIdx? (· == key) with
    | some i =>
      match ← read fast i with
      | some _ => return .error (.multipleValues c.name key)
      | none => keywords c more (← write fast i (some v)) extra
    | none =>
      if c.takesExtra then keywords c more fast ((key, v) :: extra)
      else return .error (.unexpectedKeyword c.name key)

def defaults (c : Code) (values : List Value) :
    Nat → Nat → List (Option Value) → Direct (Except Failure (List (Option Value)))
  | 0, _, fast => return .ok fast
  | count + 1, i, fast => do
    let first := c.argCount.toNat - values.length
    match ← read fast i with
    | some _ => defaults c values count (i + 1) fast
    | none =>
      match if first ≤ i then values[i - first]? else none with
      | some v => defaults c values count (i + 1) (← write fast i (some v))
      | none => return .error (.missingArgument c.name (← read c.varNames i))

def positional (c : Code) (args : List Value) : Direct (List (Option Value)) :=
  let n := c.argCount.toNat
  let given := (args.take n).map some
  let fast := given ++ List.replicate (c.varNames.length - given.length) none
  if c.takesRest then write fast n (some (.tuple (args.drop n))) else return fast

def collect (c : Code) (extra : Keywords) (fast : List (Option Value)) (s : Store) :
    Direct (List (Option Value) × Store) :=
  if c.takesExtra then do
    let (d, s) := s.newDict (extra.map fun p => (.str p.1, p.2))
    return (← write fast (c.argCount.toNat + c.takesRest.toNat) (some d), s)
  else return (fast, s)

def frameOf (f : Function) (fast : List (Option Value)) (s : Store) : Frame × Store :=
  let (names, s) := if f.code.flags.contains .newLocals then s.newScope [] else (f.globals, s)
  ({ code := f.code, fast, names, globals := f.globals, closure := f.closure }, s)

def bindFunction (f : Function) (args : List Value) (kwargs : Keywords) (s : Store) :
    Direct (Except (Failure ⊕ Fatal) (Frame × Store)) := do
  let c := f.code
  let n := c.argCount.toNat
  if c.varNames.length < c.argumentSlots then
    return .error (.inr (.tooFewLocals c.name c.argumentSlots c.varNames.length))
  else if n < args.length ∧ !c.takesRest then
    return .error (.inl (.tooManyArguments c.name n args.length))
  else
    match ← keywords c kwargs (← positional c args) [] with
    | .error e => return .error (.inl e)
    | .ok (fast, extra) =>
      let (fast, s) ← collect c extra fast s
      match ← defaults c f.defaults n 0 fast with
      | .error e => return .error (.inl e)
      | .ok fast => return .ok (frameOf f fast s)

end Direct

/-! ### Instructions -/

/-- An instruction whose accesses and operations can slip. -/
def Guarded (α : Type) : Type := Moment → Direct (EStateM.Result Stop Moment α)

instance : Monad Guarded where
  pure a := fun m => .ok (.ok a m)
  bind x g := fun m =>
    match x m with
    | .ok (.ok a m) => g a m
    | .ok (.error stop m) => .ok (.error stop m)
    | .error slip => .error slip

namespace Guarded

variable {α : Type}

def ofDirect (x : Direct α) : Guarded α := fun m =>
  match x with
  | .ok a => .ok (.ok a m)
  | .error slip => .error slip

def ofExec (x : Exec α) : Guarded α := fun m =>
  match x m with
  | .error (.fatal (.underflow _)) m => do
    return .error (.fatal (.underflow (← Direct.minus m.frame.ip 1))) m
  | result => .ok result

end Guarded

namespace Direct

open Exec Guarded

def onName (op : NameOp) (i : Nat) (x : String) : Guarded Unit := do
  match op with
  | .loadFast =>
    match ← ofDirect (read (← ofExec frame).fast i) with
    | some v => ofExec (push v)
    | none => ofExec (fail (.unboundLocal x))
  | .storeFast =>
    let v ← ofExec pop
    let f ← ofExec frame
    let fast ← ofDirect (write f.fast i (some v))
    ofExec (setFrame { f with fast })
  | .deleteFast =>
    let f ← ofExec frame
    match ← ofDirect (read f.fast i) with
    | some _ =>
      let fast ← ofDirect (write f.fast i none)
      ofExec (setFrame { f with fast })
    | none => ofExec (fail (.unboundLocal x))
  | op => ofExec (Exec.onName op i x)

def callWith (f : Value) (args : List Value) (kwargs : Keywords) : Guarded Signal := do
  match f with
  | .function f =>
    match ← ofDirect (bindFunction f args kwargs (← ofExec store)) with
    | .ok (callee, s) =>
      ofExec (setStore s)
      return .call callee
    | .error (.inl e) => ofExec (fail e)
    | .error (.inr cause) => ofExec (fatal cause)
  | f => ofExec (Exec.callWith f args kwargs)

def onCall (op : CallOp) (arg : UInt32) : Guarded Signal := do
  let spread ← ofExec (popSpread op)
  let (positional, named) := splitArgSpec arg
  let kwargs ← ofExec (orFail (← ofDirect (pairs (← ofExec (popMany (2 * named.toNat))))))
  let args ← ofExec (popMany positional.toNat)
  let f ← ofExec pop
  callWith f (args ++ spread) kwargs

def execute (ins : Instruction) (index : Nat) : Guarded Signal := do
  let n := ins.arg.toNat
  match ins.opcode with
  | .bare .binarySubscr =>
    let key ← ofExec pop
    let obj ← ofExec pop
    let s ← ofExec store
    ofExec (settle (s.itemSettles obj key))
    ofExec (push (← ofExec (orFail (← ofDirect (item s obj key)))))
    return .next
  | .bare .storeSubscr =>
    let key ← ofExec pop
    let obj ← ofExec pop
    let v ← ofExec pop
    let s ← ofExec store
    ofExec (settle (s.setItemSettles obj key))
    ofExec (setStore (← ofExec (orFail (← ofDirect (setItem s obj key v)))))
    return .next
  | .name op =>
    match ((← ofExec frame).code.pool op.pool)[n]? with
    | some x =>
      onName op n x
      return .next
    | none => ofExec (fatal (.nameRange n))
  | .binaryOp =>
    match ArithOp.ofIndex? n with
    | some op =>
      let b ← ofExec pop
      let a ← ofExec pop
      ofExec (push (← ofExec (orFailWith (← ofDirect (arith (← ofExec store) op a b)))))
      return .next
    | none => ofExec (fatal (.unknownArith n))
  | .call op => onCall op ins.arg
  | _ => ofExec (Bytewright.execute ins index)

end Direct

end Bytewright
