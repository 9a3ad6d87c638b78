import Bytewright.Proofs.Source.Emit
import Bytewright.Proofs.Source.Positions

/-!
# How large a compiled text is

A tree takes a token for each of its instructions.  A statement that is an expression has one
instruction more, which drops its value; the separator behind it, or the end of the text, makes up
for it.
-/

namespace Bytewright

open Assemble List

/-! ### Instructions of trees -/

/-- The phrase has at most `n` instructions. -/
def Phrase.Holds (p : Phrase) (n : Nat) : Prop :=
  match p with
  | .atom e | .primary e | .unary e | .product e | .sum e | .comparison e | .negation e | .full e
  | .several e => ∀ ls, size (e.emit ls).1 ≤ n
  | .items es => ∀ ls, size (emitAll es ls).1 ≤ n
  | .pairs ps => ∀ ls, size (emitPairs ps ls).1 ≤ n
  | .arguments args kwargs =>
    ∀ ls ls', size (emitAll args ls).1 + size (emitKeywords kwargs ls').1 ≤ n

variable {text : String} {e : Expr} {body : List Stmt} {ts : List Located}

theorem size_emit_tuple_le (es : List Expr) (ls : Labels) :
    size ((Expr.tuple es).emit ls).1 ≤ size (emitAll es ls).1 + 1 := by
  rw [Expr.emit]
  cases constants? es with
  | some cs => exact Nat.le_add_left _ _
  | none => exact (size_append _ _).le

theorem size_cons (op : Op) (ops : Stream) :
    size (op :: ops) = size ops + if op.isReal = true then 1 else 0 :=
  countP_cons

theorem Spells.holds {p : Phrase} (h : Spells p ts) : p.Holds ts.length := by
  induction h with
  | integer | float | none | true | false | name => exact fun ls => Nat.le_refl 1
  | @strings ts s more h =>
    intro ls
    have hlength := congrArg List.length h
    simp only [length_map, length_cons] at hlength
    show 1 ≤ ts.length
    omega
  | unit => exact fun ls => Nat.le_succ 1
  | parens hl h hr ih =>
    intro ls
    have hsize := ih ls
    simp only [length_cons, length_append]
    omega
  | list hl h hr ih | dict hl h hr ih | member h hd ht ih | minus ht h hne ih | not ht h ih =>
    intro ls
    have hsize := ih ls
    simp [Expr.emit, size_cons, Op.isReal]
    omega
  | ofAtom h ih | ofPrimary h ih | ofUnary h ih | ofProduct h ih | ofSum h ih | ofComparison h ih
  | ofNegation h ih | one h ih =>
    exact ih
  | @call f args kwargs ts us l r h hl hargs hr hdistinct hargsLength hkwargsLength ih ihargs =>
    intro ls
    have hsize := ih ls
    have hsizes := ihargs (f.emit ls).2 (emitAll args (f.emit ls).2).2
    simp [Expr.emit, size_cons, Op.isReal]
    omega
  | minusInteger | minusFloat => exact fun ls => Nat.succ_le_succ (Nat.zero_le _)
  | @subscript a b ts us _ _ _ _ _ _ iha ihb | @times _ _ _ a b ts us _ _ _ _ iha ihb
  | @plus _ _ _ a b ts us _ _ _ _ iha ihb | @compare _ _ _ a b ts us _ _ _ _ iha ihb =>
    intro ls
    have hsizeLeft := iha ls
    have hsizeRight := ihb (a.emit ls).2
    simp [Expr.emit, size_cons, Op.isReal]
    omega
  | @ifElse i j cond then_ else_ ts us vs hthen hi hcond hj helse ihthen ihcond ihelse =>
    intro ls
    simp [Expr.emit, size_cons, Op.isReal]
    generalize ls.fresh.2.fresh.2 = fresh
    have hsizeCond := ihcond fresh
    have hsizeThen := ihthen (cond.emit fresh).2
    have hsizeElse := ihelse (then_.emit (cond.emit fresh).2).2
    omega
  | @tuple e es k ts us h hk hes ih ihes =>
    intro ls
    have hsize := ih ls
    have hsizes := ihes (e.emit ls).2
    have htuple := size_emit_tuple_le (e :: es) ls
    rw [emitAll_cons, size_append] at htuple
    simp only [length_append, length_cons]
    omega
  | noItem | noPair => exact fun ls => Nat.le_refl 0
  | lastItem h ih =>
    intro ls
    simpa [emitAll] using ih ls
  | @item e es k ts us h hk hes ih ihes =>
    intro ls
    have hsize := ih ls
    have hsizes := ihes (e.emit ls).2
    simp [emitAll]
    omega
  | @lastPair key value c ts us hkey hc hvalue ihkey ihvalue =>
    intro ls
    have hsizeValue := ihvalue ls
    have hsizeKey := ihkey (value.emit ls).2
    simp [emitPairs, size_cons, Op.isReal]
    omega
  | @pair key value ps c k ts us vs hkey hc hvalue hk hps ihkey ihvalue ihps =>
    intro ls
    have hsizeValue := ihvalue ls
    have hsizeKey := ihkey (value.emit ls).2
    have hsizes := ihps (key.emit (value.emit ls).2).2
    simp [emitPairs, size_cons, Op.isReal]
    omega
  | noArgument => exact fun ls ls' => Nat.le_refl 0
  | lastArgument h ih =>
    intro ls ls'
    simpa [emitAll, emitKeywords] using ih ls
  | @argument e args kwargs k ts us h hk hargs ih ihargs =>
    intro ls ls'
    have hsize := ih ls
    have hsizes := ihargs (e.emit ls).2 ls'
    simp [emitAll]
    omega
  | lastKeyword ht ha h ih =>
    intro ls ls'
    have hsize := ih ls'
    simp [emitAll, emitKeywords, size_cons, Op.isReal]
    omega
  | @keyword x value kwargs t a k ts us ht ha h hk hkwargs ih ihkwargs =>
    intro ls ls'
    have hsize := ih ls'
    have hsizes := ihkwargs ls (value.emit ls').2
    simp [emitAll, emitKeywords, size_cons, Op.isReal] at hsizes ⊢
    omega

theorem size_emit_target_le {target : Target} (h : e.target? = some target) (ls : Labels) :
    size (target.emit ls).1 ≤ size (e.emit ls).1 := by
  unfold Expr.target? at h
  split at h <;> cases h <;> simp [Target.emit, Expr.emit, size_cons, Op.isReal]

theorem SpellsAction.size_le {a : Action} (h : SpellsAction a ts) (ls : Labels) :
    size (a.emit ls).1 ≤ ts.length + 1 := by
  cases h with
  | pass => exact Nat.zero_le _
  | delete => exact Nat.succ_le_succ (Nat.zero_le _)
  | @raise t e ts ht h =>
    have hsize : size (e.emit ls).1 ≤ ts.length := h.holds ls
    simp [Action.emit, size_cons, Op.isReal]
    omega
  | @expr e ts h =>
    have hsize : size (e.emit ls).1 ≤ ts.length := h.holds ls
    simpa [Action.emit, size_cons, Op.isReal] using hsize
  | @assign e value target a ts us h htarget ha hvalue =>
    have hsize : size (value.emit ls).1 ≤ us.length := hvalue.holds ls
    have htargetSize := size_emit_target_le htarget (value.emit ls).2
    have hexpr : size (e.emit (value.emit ls).2).1 ≤ ts.length := h.holds _
    simp [Action.emit]
    omega

theorem SpellsSuite.size_le (h : SpellsSuite body ts) (ls : Labels) :
    size (emitSuite body ls).1 ≤ ts.length + 1 ∧
      ((∀ t ∈ ts.head?, t.token.Separates) → size (emitSuite body ls).1 ≤ ts.length) := by
  induction h generalizing ls with
  | done h => exact ⟨Nat.zero_le _, fun _ => Nat.zero_le _⟩
  | @stmt s body before us rest hbefore hs hrest hnext ih =>
    have hfirst := hs.1.size_le ls
    have hmore := (ih (s.action.emit ls).2).2 hnext
    have hsize : size (emitSuite (s :: body) ls).1 =
        size (s.action.emit ls).1 + size (emitSuite body (s.action.emit ls).2).1 :=
      size_append (.line s.line :: (s.action.emit ls).1) _
    rw [hsize, length_append, length_append]
    refine ⟨by omega, fun hhead => ?_⟩
    rcases before with _ | ⟨t, before⟩
    · obtain ⟨t, vs, rfl, -⟩ := hs.2
      exact absurd (hhead t rfl) (hs.1.head_not_separates t rfl)
    · rw [length_cons]
      omega

/-! ### Instructions of texts -/

theorem spellsSuite_of_parseStatements (h : parseStatements text = .ok body) :
    ∃ ts, SpellsSuite body ts ∧ ts.length ≤ text.length := by
  obtain ⟨ts, ⟨hbody, -⟩, hlength⟩ := (outcome_of_parseStatements text).1 body h
  exact ⟨ts, hbody, hlength⟩

theorem spellsLone_of_parseExpression (h : parseExpression text = .ok e) :
    ∃ ts, SpellsLone e ts ∧ ts.length ≤ text.length := by
  obtain ⟨ts, ⟨he, -⟩, hlength⟩ := (outcome_of_parseExpression text).1 e h
  exact ⟨ts, he, hlength⟩

theorem callable_of_parseStatements (h : parseStatements text = .ok body) :
    ∀ s ∈ body, s.Callable := by
  obtain ⟨ts, hbody, -⟩ := spellsSuite_of_parseStatements h
  exact hbody.callable

theorem callable_of_parseExpression (h : parseExpression text = .ok e) : e.Callable := by
  obtain ⟨ts, ⟨before, us, after, -, -, he, -⟩, -⟩ := spellsLone_of_parseExpression h
  exact he.callable

theorem size_emitSuite_of_parseStatements (h : parseStatements text = .ok body) :
    size (emitSuite body {}).1 ≤ text.length + 1 := by
  obtain ⟨ts, hbody, hlength⟩ := spellsSuite_of_parseStatements h
  have hsize := (hbody.size_le {}).1
  omega

theorem size_emit_of_parseExpression (h : parseExpression text = .ok e) :
    size (e.emit {}).1 ≤ text.length := by
  obtain ⟨ts, ⟨before, us, after, rfl, -, he, -⟩, hlength⟩ := spellsLone_of_parseExpression h
  have hsize : size (e.emit {}).1 ≤ us.length := he.holds {}
  simp only [length_append] at hlength
  omega

end Bytewright
