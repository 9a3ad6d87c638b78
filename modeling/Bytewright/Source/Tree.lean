import Bytewright.Code.Basic

/-!
# Trees of fragments

Expressions and statements as they are parsed.
-/

namespace Bytewright

/-- An expression. -/
inductive Expr where
  | literal (c : Const)
  | name (x : String)
  | attribute (obj : Expr) (attr : String)
  | subscript (obj key : Expr)
  | call (func : Expr) (args : List Expr) (kwargs : List (String × Expr))
  | tuple (items : List Expr)
  | list (items : List Expr)
  | dict (pairs : List (Expr × Expr))
  | negate (operand : Expr)
  | not (operand : Expr)
  | binary (op : ArithOp) (left right : Expr)
  | compare (op : CompareOp) (left right : Expr)
  | ifElse (cond then_ else_ : Expr)

/-- The left side of an assignment. -/
inductive Target where
  | name (x : String)
  | attribute (obj : Expr) (attr : String)
  | subscript (obj key : Expr)

/-- The target that an expression denotes, if it denotes one. -/
def Expr.target? : Expr → Option Target
  | .name x => some (.name x)
  | .attribute obj attr => some (.attribute obj attr)
  | .subscript obj key => some (.subscript obj key)
  | _ => none

inductive Action where
  | expr (e : Expr)
  | assign (target : Target) (value : Expr)
  | delete (x : String)
  | raise (e : Expr)
  | pass

/-- A statement and the line it starts on. -/
structure Stmt where
  action : Action
  line : UInt32

end Bytewright
