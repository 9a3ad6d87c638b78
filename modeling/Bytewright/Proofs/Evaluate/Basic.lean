import Bytewright.Proofs.Machine.Context
import Bytewright.Source.Compile

/-!
# Evaluating trees

| tree | order |
|---|---|
| `f(a, k=v)` | `f`, the positional arguments, the keyword arguments, the call |
| `{k: v}` | for each pair the value, then the key, then the insertion |
| `a if c else b` | `c`, then one of `a` and `b` |
| `t = v` | `v`, then the parts of `t`, then the store |
-/

namespace Bytewright

/-- Why an evaluation has no value. -/
inductive Halt where
  | raise (e : Exception) (entries : List TraceEntry)
  | fatal (cause : Fatal) (active : List String)
  | crash
  | unfinished

/-- A computation on the memory that can halt. -/
abbrev Eval := EStateM Halt Memory

/-- Where names are looked up. -/
structure Env where
  names : ScopeRef
  globals : ScopeRef

def Frame.env (f : Frame) : Env := ⟨f.names, f.globals⟩

def Env.lookup (env : Env) (s : Store) (x : String) : Except Failure Value :=
  match (s.scope env.names).get? x with
  | some v => .ok v
  | none => Exec.lookupGlobal s env.globals x

def Env.unbind (env : Env) (s : Store) (x : String) : Except Failure Store :=
  match (s.scope env.names).get? x with
  | some _ => .ok (s.setScope env.names ((s.scope env.names).erase x))
  | none => .error (.unbound x)

namespace Eval

variable {α : Type}

def attempt (x : EStateM Failure Memory α) : Eval α := fun m =>
  match x m with
  | .ok a m => .ok a m
  | .error failure m =>
    let (e, store) := m.store.failed failure
    .error (.raise e []) { m with store }

def onStore (x : Store → Except Failure (α × Store)) : Eval α :=
  attempt fun m =>
    match x m.store with
    | .ok (a, store) => .ok a { m with store }
    | .error failure => .error failure m

def view (x : Store → Except Failure α) : Eval α := onStore fun s => (x s).map (·, s)

/-- Crashes where the comparison that the operation needs does not come to an answer. -/
def settling (settled : Store → Bool) (x : Eval α) : Eval α := fun m =>
  if settled m.store then x m else .error .crash m

def raise (e : Exception) : Eval α := fun m => .error (.raise e []) m

def ofOutcome : Option (Outcome × Memory) → Eval Value
  | some (.value v, m), _ => .ok v m
  | some (.raised e entries, m), _ => .error (.raise e entries) m
  | some (.fatal cause active, m), _ => .error (.fatal cause active) m
  | some (.crashed, m), _ => .error .crash m
  | none, m => .error .unfinished m

def call (env : Env) (fuel : Nat) (f : Value) (args : List Value)
    (kwargs : Keywords) : Eval Value :=
  match f with
  | .function f => fun m =>
    match f.bind args kwargs m.store with
    | .ok (frame, store) =>
      ofOutcome (Run.outcome? fuel { frame, memory := { m with store } }) { m with store }
    | .error (.inl failure) => attempt (fun m => .error failure m) m
    | .error (.inr cause) => .error (.fatal cause []) m
  | f => attempt (Memory.callValue env.globals f args kwargs)

end Eval

open Eval

/-! ### Expressions -/

mutual

/-- The value of an expression, by recursion; functions that it calls run as long as there is fuel.
-/
def Expr.eval (env : Env) (fuel : Nat) : Expr → Eval Value
  | .literal c => onStore fun s => .ok (s.ofConst c)
  | .name x => view fun s => env.lookup s x
  | .attribute obj attr => do
    let o ← obj.eval env fuel
    onStore fun s => s.attr o attr
  | .subscript obj key => do
    let o ← obj.eval env fuel
    let k ← key.eval env fuel
    settling (·.itemSettles o k) (view fun s => s.item o k)
  | .call func args kwargs => do
    let f ← func.eval env fuel
    let args ← evalAll env fuel args
    let kwargs ← evalKeywords env fuel kwargs
    call env fuel f args kwargs
  | .tuple items => do
    let items ← evalAll env fuel items
    return .tuple items
  | .list items => do
    let items ← evalAll env fuel items
    onStore fun s => .ok (s.newList items)
  | .dict pairs => do
    let r ← onStore fun s => .ok (⟨s.dicts.size⟩, (s.newDict []).2)
    evalPairs env fuel r pairs
    return .dict r
  | .negate operand => do
    let v ← operand.eval env fuel
    view fun _ => v.negate
  | .not operand => do
    let v ← operand.eval env fuel
    view fun s => .ok (.bool !s.truthy v)
  | .binary op left right => do
    let a ← left.eval env fuel
    let b ← right.eval env fuel
    onStore fun s => s.arith op a b
  | .compare op left right => do
    let a ← left.eval env fuel
    let b ← right.eval env fuel
    settling (·.compareSettles op a b)
      (onStore fun s => (s.compare op a b).map fun holds => (.bool holds, s))
  | .ifElse cond then_ else_ => do
    let v ← cond.eval env fuel
    if ← view fun s => .ok (s.truthy v) then then_.eval env fuel else else_.eval env fuel

def evalAll (env : Env) (fuel : Nat) : List Expr → Eval (List Value)
  | [] => return []
  | e :: es => do
    let v ← e.eval env fuel
    let vs ← evalAll env fuel es
    return v :: vs

def evalKeywords (env : Env) (fuel : Nat) : List (String × Expr) → Eval Keywords
  | [] => return []
  | (x, e) :: es => do
    let v ← e.eval env fuel
    let vs ← evalKeywords env fuel es
    return (x, v) :: vs

def evalPairs (env : Env) (fuel : Nat) (r : DictRef) : List (Expr × Expr) → Eval Unit
  | [] => return
  | (key, value) :: es => do
    let v ← value.eval env fuel
    let k ← key.eval env fuel
    settling (·.pairSettles r k) (onStore fun s => .ok ((), s.setPair r k v))
    evalPairs env fuel r es

end

/-! ### Statements -/

def Target.assign (env : Env) (fuel : Nat) (v : Value) : Target → Eval Unit
  | .name x => onStore fun s => .ok ((), s.bindName env.names x v)
  | .attribute obj attr => do
    let o ← obj.eval env fuel
    onStore fun s => (s.setAttr o attr v).map ((), ·)
  | .subscript obj key => do
    let o ← obj.eval env fuel
    let k ← key.eval env fuel
    settling (·.setItemSettles o k) (onStore fun s => (s.setItem o k v).map ((), ·))

/-- What a statement does, read off its tree. -/
def Action.exec (env : Env) (fuel : Nat) : Action → Eval Unit
  | .expr e => do
    let _ ← e.eval env fuel
    return
  | .assign target value => do
    let v ← value.eval env fuel
    target.assign env fuel v
  | .delete x => onStore fun s => (env.unbind s x).map ((), ·)
  | .raise e => do
    let v ← e.eval env fuel
    let e ← onStore fun s => s.normalize v .none
    Eval.raise e
  | .pass => return

def execSuite (env : Env) (fuel : Nat) : List Stmt → Eval Unit
  | [] => return
  | s :: rest => do
    s.action.exec env fuel
    execSuite env fuel rest

/-! ### Constants -/

mutual

theorem Expr.eval_of_constant? (env : Env) (fuel : Nat) (m : Memory) :
    ∀ (e : Expr) (c : Const), e.constant? = some c →
      e.eval env fuel m = .ok (m.store.ofConst c).1 { m with store := (m.store.ofConst c).2 }
  | .literal c, _, rfl => rfl
  | .tuple items, c, h => by
    obtain ⟨cs, hcs, rfl⟩ := Option.map_eq_some_iff.1 h
    rw [Expr.eval]
    simp only [bind, EStateM.bind, evalAll_of_constants? env fuel m items cs hcs]
    rfl

theorem evalAll_of_constants? (env : Env) (fuel : Nat) (m : Memory) :
    ∀ (es : List Expr) (cs : List Const), constants? es = some cs →
      evalAll env fuel es m =
        .ok (m.store.ofConsts cs).1 { m with store := (m.store.ofConsts cs).2 }
  | [], _, rfl => rfl
  | e :: es, cs, h => by
    rw [constants?] at h
    split at h
    · next c cs' hc hcs =>
      cases h
      rw [evalAll]
      simp only [bind, EStateM.bind, Expr.eval_of_constant? env fuel m e c hc,
        evalAll_of_constants? env fuel _ es cs' hcs]
      rfl
    · cases h

end

end Bytewright
