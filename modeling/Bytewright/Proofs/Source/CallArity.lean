import Bytewright.Proofs.Source.Grammar

/-!
# The arguments of parsed calls

No call in a tree that tokens spell has more arguments than one byte counts.
-/

namespace Bytewright

open List

/-! ### Trees -/

/-- The calls in the tree have no more arguments than one byte counts. -/
inductive Expr.Callable : Expr → Prop
  | literal (c : Const) : Callable (.literal c)
  | name (x : String) : Callable (.name x)
  | member {obj : Expr} (hobj : Callable obj) (attr : String) : Callable (.attribute obj attr)
  | subscript {obj key : Expr} (hobj : Callable obj) (hkey : Callable key) :
      Callable (.subscript obj key)
  | call {func : Expr} {args : List Expr} {kwargs : List (String × Expr)}
      (hargsLength : args.length ≤ 255) (hkwargsLength : kwargs.length ≤ 255)
      (hfunc : Callable func) (hargs : ∀ e ∈ args, Callable e)
      (hkwargs : ∀ p ∈ kwargs, Callable p.2) : Callable (.call func args kwargs)
  | tuple {items : List Expr} (hitems : ∀ e ∈ items, Callable e) : Callable (.tuple items)
  | list {items : List Expr} (hitems : ∀ e ∈ items, Callable e) : Callable (.list items)
  | dict {pairs : List (Expr × Expr)} (hkeys : ∀ p ∈ pairs, Callable p.1)
      (hvalues : ∀ p ∈ pairs, Callable p.2) : Callable (.dict pairs)
  | negate {operand : Expr} (h : Callable operand) : Callable (.negate operand)
  | not {operand : Expr} (h : Callable operand) : Callable (.not operand)
  | binary {left right : Expr} (op : ArithOp) (hleft : Callable left) (hright : Callable right) :
      Callable (.binary op left right)
  | compare {left right : Expr} (op : CompareOp) (hleft : Callable left)
      (hright : Callable right) : Callable (.compare op left right)
  | ifElse {cond then_ else_ : Expr} (hcond : Callable cond) (hthen : Callable then_)
      (helse : Callable else_) : Callable (.ifElse cond then_ else_)

def Target.Callable : Target → Prop
  | .name _ => True
  | .attribute obj _ => obj.Callable
  | .subscript obj key => obj.Callable ∧ key.Callable

def Action.Callable : Action → Prop
  | .expr e | .raise e => e.Callable
  | .assign target value => target.Callable ∧ value.Callable
  | .delete _ | .pass => True

def Stmt.Callable (s : Stmt) : Prop := s.action.Callable

theorem Expr.Callable.target {e : Expr} {t : Target} (he : e.Callable) (ht : e.target? = some t) :
    t.Callable := by
  cases he with
  | name x =>
    cases ht
    trivial
  | member hobj attr =>
    cases ht
    exact hobj
  | subscript hobj hkey =>
    cases ht
    exact ⟨hobj, hkey⟩
  | _ => cases ht

/-! ### Spelled trees -/

def Phrase.Callable : Phrase → Prop
  | .atom e | .primary e | .unary e | .product e | .sum e | .comparison e | .negation e | .full e
  | .several e => e.Callable
  | .items es => ∀ e ∈ es, e.Callable
  | .pairs ps => (∀ p ∈ ps, p.1.Callable) ∧ ∀ p ∈ ps, p.2.Callable
  | .arguments args kwargs => (∀ e ∈ args, e.Callable) ∧ ∀ p ∈ kwargs, p.2.Callable

variable {ts : List Located}

theorem Spells.callable {p : Phrase} (h : Spells p ts) : p.Callable := by
  induction h with
  | integer | float | strings | none | true | false | minusInteger | minusFloat =>
    exact .literal _
  | name => exact .name _
  | unit => exact .tuple (forall_mem_nil _)
  | parens _ _ _ ih
  | ofAtom _ ih | ofPrimary _ ih | ofUnary _ ih | ofProduct _ ih | ofSum _ ih | ofComparison _ ih
  | ofNegation _ ih | one _ ih =>
    exact ih
  | list _ _ _ ih => exact .list ih
  | dict _ _ _ ih => exact .dict ih.1 ih.2
  | member _ _ _ ih => exact .member ih _
  | call _ _ _ _ _ hargs hkwargs ih ihargs => exact .call hargs hkwargs ih ihargs.1 ihargs.2
  | subscript _ _ _ _ ih ihkey => exact .subscript ih ihkey
  | minus _ _ _ ih => exact .negate ih
  | times _ _ _ _ iha ihb | plus _ _ _ _ iha ihb => exact .binary _ iha ihb
  | compare _ _ _ _ iha ihb => exact .compare _ iha ihb
  | not _ _ ih => exact .not ih
  | ifElse _ _ _ _ _ ihthen ihcond ihelse => exact .ifElse ihcond ihthen ihelse
  | tuple _ _ _ ih ihes => exact .tuple (forall_mem_cons.2 ⟨ih, ihes⟩)
  | noItem => exact forall_mem_nil _
  | noPair | noArgument => exact ⟨forall_mem_nil _, forall_mem_nil _⟩
  | lastItem _ ih => exact forall_mem_singleton.2 ih
  | item _ _ _ ih ihes => exact forall_mem_cons.2 ⟨ih, ihes⟩
  | lastPair _ _ _ ihkey ihvalue =>
    exact ⟨forall_mem_singleton.2 ihkey, forall_mem_singleton.2 ihvalue⟩
  | pair _ _ _ _ _ ihkey ihvalue ihps =>
    exact ⟨forall_mem_cons.2 ⟨ihkey, ihps.1⟩, forall_mem_cons.2 ⟨ihvalue, ihps.2⟩⟩
  | lastArgument _ ih => exact ⟨forall_mem_singleton.2 ih, forall_mem_nil _⟩
  | argument _ _ _ ih ihargs => exact ⟨forall_mem_cons.2 ⟨ih, ihargs.1⟩, ihargs.2⟩
  | lastKeyword _ _ _ ih => exact ⟨forall_mem_nil _, forall_mem_singleton.2 ih⟩
  | keyword _ _ _ _ _ ih ihkwargs =>
    exact ⟨forall_mem_nil _, forall_mem_cons.2 ⟨ih, ihkwargs.2⟩⟩

theorem SpellsAction.callable {a : Action} (h : SpellsAction a ts) : a.Callable := by
  cases h with
  | pass | delete => trivial
  | raise _ h | expr h => exact h.callable
  | assign h htarget _ hvalue => exact ⟨h.callable.target htarget, hvalue.callable⟩

theorem SpellsSuite.callable {body : List Stmt} (h : SpellsSuite body ts) :
    ∀ s ∈ body, s.Callable := by
  induction h with
  | done => exact forall_mem_nil _
  | stmt _ hs _ _ ih => exact forall_mem_cons.2 ⟨hs.1.callable, ih⟩

end Bytewright
