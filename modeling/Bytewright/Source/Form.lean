import Bytewright.Source.Tree

/-!
# Trees written out

A tree as a text that shows its shape: every node is a list in parentheses with what it is in
front, and items are separated by one blank.
-/

namespace Bytewright

def formList (forms : List String) : String := "(" ++ " ".intercalate forms ++ ")"

mutual

def Expr.form : Expr → String
  | .literal c => c.text
  | .name x => formList ["name", x]
  | .attribute obj attr => formList ["attr", obj.form, attr]
  | .subscript obj key => formList ["sub", obj.form, key.form]
  | .call func args kwargs =>
    formList ["call", func.form, formList (formsOf args), formList (keywordForms kwargs)]
  | .tuple items => formList ["tuple", formList (formsOf items)]
  | .list items => formList ["list", formList (formsOf items)]
  | .dict pairs => formList ["dict", formList (pairForms pairs)]
  | .negate operand => formList ["neg", operand.form]
  | .not operand => formList ["not", operand.form]
  | .binary op left right => formList [op.symbol, left.form, right.form]
  | .compare op left right => formList [op.symbol, left.form, right.form]
  | .ifElse cond then_ else_ => formList ["if", cond.form, then_.form, else_.form]

def formsOf : List Expr → List String
  | [] => []
  | e :: es => e.form :: formsOf es

def keywordForms : List (String × Expr) → List String
  | [] => []
  | (x, e) :: rest => formList [x, e.form] :: keywordForms rest

def pairForms : List (Expr × Expr) → List String
  | [] => []
  | (k, v) :: rest => formList [k.form, v.form] :: pairForms rest

end

def Target.form : Target → String
  | .name x => (Expr.name x).form
  | .attribute obj attr => (Expr.attribute obj attr).form
  | .subscript obj key => (Expr.subscript obj key).form

def Action.form : Action → String
  | .expr e => formList ["expr", e.form]
  | .assign target value => formList ["set", target.form, value.form]
  | .delete x => formList ["del", x]
  | .raise e => formList ["raise", e.form]
  | .pass => formList ["pass"]

end Bytewright
