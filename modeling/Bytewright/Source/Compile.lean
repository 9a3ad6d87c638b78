import Bytewright.Source.Parser
import Bytewright.Stream.Assemble

/-!
# Compiling fragments

A tree becomes a stream in which names are looked up dynamically.  A suite sets the line of each
statement and ends by returning `None`; an expression ends by returning its value.

| tree | stream |
|---|---|
| `f(a, k=v)` | `f`, `a`, the constant `"k"`, `v`, the call |
| tuple of constants | one constant |
| `{k: v}` | an empty map, then `v`, `k` and a store for each pair |
| `a if c else b` | `c`, jump if false, `a`, jump, `b` |
| `t = v` | `v`, then the parts of `t`, then the store |
-/

namespace Bytewright

/-! ### Expressions -/

mutual

/-- The constant that an expression made of literals and tuples denotes. -/
def Expr.constant? : Expr → Option Const
  | .literal c => some c
  | .tuple items => (constants? items).map Const.tuple
  | _ => none

/-- The constants that several expressions denote, if all of them denote one. -/
def constants? : List Expr → Option (List Const)
  | [] => some []
  | e :: es =>
    match e.constant?, constants? es with
    | some c, some cs => some (c :: cs)
    | _, _ => none

end

mutual

/-- The stream that leaves the value of an expression on the stack. -/
def Expr.emit : Expr → Labels → Stream × Labels
  | .literal c, ls => ([.const c], ls)
  | .name x, ls => ([.name .loadName x], ls)
  | .attribute obj attr, ls =>
    let (o, ls) := obj.emit ls
    (o ++ [.name .loadAttr attr], ls)
  | .subscript obj key, ls =>
    let (o, ls) := obj.emit ls
    let (k, ls) := key.emit ls
    (o ++ k ++ [.bare .binarySubscr], ls)
  | .call func args kwargs, ls =>
    let (f, ls) := func.emit ls
    let (a, ls) := emitAll args ls
    let (k, ls) := emitKeywords kwargs ls
    (f ++ a ++ k ++
      [.call .callFunction (UInt8.ofNat args.length) (UInt8.ofNat kwargs.length)], ls)
  | .tuple items, ls =>
    match constants? items with
    | some cs => ([.const (.tuple cs)], ls)
    | none =>
      let (i, ls) := emitAll items ls
      (i ++ [.count .buildTuple (UInt32.ofNat items.length)], ls)
  | .list items, ls =>
    let (i, ls) := emitAll items ls
    (i ++ [.count .buildList (UInt32.ofNat items.length)], ls)
  | .dict pairs, ls =>
    let (p, ls) := emitPairs pairs ls
    (.count .buildMap (UInt32.ofNat pairs.length) :: p, ls)
  | .negate operand, ls =>
    let (o, ls) := operand.emit ls
    (o ++ [.bare .unaryNegative], ls)
  | .not operand, ls =>
    let (o, ls) := operand.emit ls
    (o ++ [.bare .unaryNot], ls)
  | .binary op left right, ls =>
    let (l, ls) := left.emit ls
    let (r, ls) := right.emit ls
    (l ++ r ++ [.arith op], ls)
  | .compare op left right, ls =>
    let (l, ls) := left.emit ls
    let (r, ls) := right.emit ls
    (l ++ r ++ [.compare op], ls)
  | .ifElse cond then_ else_, ls =>
    let (elseLabel, ls) := ls.fresh
    let (endLabel, ls) := ls.fresh
    let (c, ls) := cond.emit ls
    let (t, ls) := then_.emit ls
    let (e, ls) := else_.emit ls
    (c ++ [.jump .popJumpIfFalse elseLabel] ++ t ++ [.jump .jumpForward endLabel, .mark elseLabel]
      ++ e ++ [.mark endLabel], ls)

/-- The stream that leaves the values of several expressions, in order. -/
def emitAll : List Expr → Labels → Stream × Labels
  | [], ls => ([], ls)
  | e :: es, ls =>
    let (first, ls) := e.emit ls
    let (rest, ls) := emitAll es ls
    (first ++ rest, ls)

/-- The stream that leaves names and values of keyword arguments, in order. -/
def emitKeywords : List (String × Expr) → Labels → Stream × Labels
  | [], ls => ([], ls)
  | (x, e) :: es, ls =>
    let (first, ls) := e.emit ls
    let (rest, ls) := emitKeywords es ls
    (.const (.str x) :: first ++ rest, ls)

/-- The stream that stores pairs into the map on top of the stack; a value comes before its
key. -/
def emitPairs : List (Expr × Expr) → Labels → Stream × Labels
  | [], ls => ([], ls)
  | (key, value) :: es, ls =>
    let (v, ls) := value.emit ls
    let (k, ls) := key.emit ls
    let (rest, ls) := emitPairs es ls
    (v ++ k ++ .bare .storeMap :: rest, ls)

end

/-! ### Statements -/

/-- The stream that stores the value on top of the stack. -/
def Target.emit : Target → Labels → Stream × Labels
  | .name x, ls => ([.name .storeName x], ls)
  | .attribute obj attr, ls =>
    let (o, ls) := obj.emit ls
    (o ++ [.name .storeAttr attr], ls)
  | .subscript obj key, ls =>
    let (o, ls) := obj.emit ls
    let (k, ls) := key.emit ls
    (o ++ k ++ [.bare .storeSubscr], ls)

def Action.emit : Action → Labels → Stream × Labels
  | .expr e, ls =>
    let (ops, ls) := e.emit ls
    (ops ++ [.bare .popTop], ls)
  | .assign target value, ls =>
    let (v, ls) := value.emit ls
    let (t, ls) := target.emit ls
    (v ++ t, ls)
  | .delete x, ls => ([.name .deleteName x], ls)
  | .raise e, ls =>
    let (ops, ls) := e.emit ls
    (ops ++ [.count .raiseVarargs 1], ls)
  | .pass, ls => ([], ls)

/-- The stream of a statement, its line in front. -/
def Stmt.emit (s : Stmt) (ls : Labels) : Stream × Labels :=
  let (ops, ls) := s.action.emit ls
  (.line s.line :: ops, ls)

def emitSuite : List Stmt → Labels → Stream × Labels
  | [], ls => ([], ls)
  | s :: rest, ls =>
    let (first, ls) := s.emit ls
    let (ops, ls) := emitSuite rest ls
    (first ++ ops, ls)

/-! ### Units -/

/-- The unit of a compiled fragment; what is wrong with its code is reported at its first line. -/
def finishFragment (fileName : String) (ops : Stream) (firstLine : UInt32) :
    Except FragmentError Code :=
  match assemble fileName ops { name := "<module>", firstLine } with
  | .ok c => .ok c
  | .error e => .error ⟨.refused e.message, ⟨firstLine.toNat, 1⟩⟩

/-- The unit of a suite: its statements and `return None`. -/
def compileStatements (body : List Stmt) (fileName : String) : Except FragmentError Code :=
  finishFragment fileName ((emitSuite body {}).1 ++ [.const .none, .bare .returnValue])
    (body.head?.elim 1 Stmt.line)

/-- The unit of an expression: its value is returned. -/
def compileExpression (e : Expr) (fileName : String) : Except FragmentError Code :=
  finishFragment fileName (.line 1 :: (e.emit {}).1 ++ [.bare .returnValue]) 1

/-- What is compiled: a text, or a tree. -/
inductive Fragment where
  | source (text : String)
  | statements (body : List Stmt)
  | expression (e : Expr)

/-- A compiler of fragments: given a fragment, a file name and a mode, it makes a unit.  The unit
of a suite is expected to start with a line marker and to end by returning `None`, that of an
expression to end with a return. -/
abbrev FragmentCompiler := Fragment → String → Mode → Except FragmentError Code

def sourceCompiler : FragmentCompiler
  | .source text, fileName, .statements => do compileStatements (← parseStatements text) fileName
  | .source text, fileName, .expression => do compileExpression (← parseExpression text) fileName
  | .statements body, fileName, .statements => compileStatements body fileName
  | .expression e, fileName, .expression => compileExpression e fileName
  | .statements _, _, .expression => .error ⟨.suiteAsExpression, .start⟩
  | .expression _, _, .statements => .error ⟨.expressionAsSuite, .start⟩

end Bytewright
