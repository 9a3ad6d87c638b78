import Mathlib
import Bytewright.Source.Parser

/-!
# The grammar of fragments

The operators of sums and products associate to the left.  Positions play no part in expressions; a
statement takes the line of its first token.  Nothing here bounds how deep a tree is.
-/

namespace Bytewright

open List

/-! ### Operators -/

def sumOperators : List (Symbol × ArithOp) := [(.plus, .add), (.minus, .subtract)]

def productOperators : List (Symbol × ArithOp) :=
  [(.star, .multiply), (.slash, .divide), (.percent, .modulo)]

def compareOperators : List (Symbol × CompareOp) :=
  [(.lt, .lt), (.ltEq, .le), (.eqEq, .eq), (.notEq, .ne), (.gt, .gt), (.gtEq, .ge)]

/-! ### Expressions -/

/-- A syntactic category, with the tree that it stands for. -/
inductive Phrase where
  | atom (e : Expr)
  | primary (e : Expr)
  | unary (e : Expr)
  | product (e : Expr)
  | sum (e : Expr)
  | comparison (e : Expr)
  | negation (e : Expr)
  | full (e : Expr)
  | several (e : Expr)
  | items (es : List Expr)
  | pairs (ps : List (Expr × Expr))
  | arguments (args : List Expr) (kwargs : List (String × Expr))

def Expr.IsNumber (e : Expr) : Prop :=
  (∃ n, e = .literal (.int n)) ∨ ∃ x, e = .literal (.float x)

/-- The tokens spell the phrase; there is one constructor for each production. -/
inductive Spells : Phrase → List Located → Prop
  | integer {t : Located} {n : Int64} (h : t.token = .integer n) :
    Spells (.atom (.literal (.int n))) [t]
  | float {t : Located} {x : Binary64} (h : t.token = .float x) :
    Spells (.atom (.literal (.float x))) [t]
  | strings {ts : List Located} {s : String} {more : List String}
    (h : ts.map Located.token = (s :: more).map Token.str) :
    Spells (.atom (.literal (.str (String.join (s :: more))))) ts
  | none {t : Located} (h : t.token = .keyword .none) : Spells (.atom (.literal .none)) [t]
  | true {t : Located} (h : t.token = .keyword .true) : Spells (.atom (.literal (.bool true))) [t]
  | false {t : Located} (h : t.token = .keyword .false) :
    Spells (.atom (.literal (.bool false))) [t]
  | name {t : Located} {x : String} (h : t.token = .ident x) : Spells (.atom (.name x)) [t]
  | unit {l r : Located} (hl : l.token = .symbol .lParen) (hr : r.token = .symbol .rParen) :
    Spells (.atom (.tuple [])) [l, r]
  | parens {l r : Located} {e : Expr} {ts : List Located} (hl : l.token = .symbol .lParen)
    (h : Spells (.several e) ts) (hr : r.token = .symbol .rParen) :
    Spells (.atom e) (l :: (ts ++ [r]))
  | list {l r : Located} {es : List Expr} {ts : List Located} (hl : l.token = .symbol .lBracket)
    (h : Spells (.items es) ts) (hr : r.token = .symbol .rBracket) :
    Spells (.atom (.list es)) (l :: (ts ++ [r]))
  | dict {l r : Located} {ps : List (Expr × Expr)} {ts : List Located}
    (hl : l.token = .symbol .lBrace) (h : Spells (.pairs ps) ts) (hr : r.token = .symbol .rBrace) :
    Spells (.atom (.dict ps)) (l :: (ts ++ [r]))
  | ofAtom {e : Expr} {ts : List Located} (h : Spells (.atom e) ts) : Spells (.primary e) ts
  | member {e : Expr} {ts : List Located} {d t : Located} {x : String}
    (h : Spells (.primary e) ts) (hd : d.token = .symbol .dot) (ht : t.token = .ident x) :
    Spells (.primary (.attribute e x)) (ts ++ [d, t])
  | call {f : Expr} {args : List Expr} {kwargs : List (String × Expr)} {ts us : List Located}
    {l r : Located} (h : Spells (.primary f) ts) (hl : l.token = .symbol .lParen)
    (hargs : Spells (.arguments args kwargs) us) (hr : r.token = .symbol .rParen)
    (hdistinct : (kwargs.map Prod.fst).Nodup) (hargsLength : args.length ≤ 255)
    (hkwargsLength : kwargs.length ≤ 255) :
    Spells (.primary (.call f args kwargs)) (ts ++ l :: (us ++ [r]))
  | subscript {e key : Expr} {ts us : List Located} {l r : Located} (h : Spells (.primary e) ts)
    (hl : l.token = .symbol .lBracket) (hkey : Spells (.several key) us)
    (hr : r.token = .symbol .rBracket) :
    Spells (.primary (.subscript e key)) (ts ++ l :: (us ++ [r]))
  | ofPrimary {e : Expr} {ts : List Located} (h : Spells (.primary e) ts) : Spells (.unary e) ts
  | minusInteger {t : Located} {n : Int64} {ts : List Located} (ht : t.token = .symbol .minus)
    (h : Spells (.unary (.literal (.int n))) ts) : Spells (.unary (.literal (.int (-n)))) (t :: ts)
  | minusFloat {t : Located} {x : Binary64} {ts : List Located} (ht : t.token = .symbol .minus)
    (h : Spells (.unary (.literal (.float x))) ts) :
    Spells (.unary (.literal (.float x.neg))) (t :: ts)
  | minus {t : Located} {e : Expr} {ts : List Located} (ht : t.token = .symbol .minus)
    (h : Spells (.unary e) ts) (hne : ¬e.IsNumber) : Spells (.unary (.negate e)) (t :: ts)
  | ofUnary {e : Expr} {ts : List Located} (h : Spells (.unary e) ts) : Spells (.product e) ts
  | times {t : Located} {s : Symbol} {op : ArithOp} {a b : Expr} {ts us : List Located}
    (ha : Spells (.product a) ts) (ht : t.token = .symbol s) (hop : (s, op) ∈ productOperators)
    (hb : Spells (.unary b) us) : Spells (.product (.binary op a b)) (ts ++ t :: us)
  | ofProduct {e : Expr} {ts : List Located} (h : Spells (.product e) ts) : Spells (.sum e) ts
  | plus {t : Located} {s : Symbol} {op : ArithOp} {a b : Expr} {ts us : List Located}
    (ha : Spells (.sum a) ts) (ht : t.token = .symbol s) (hop : (s, op) ∈ sumOperators)
    (hb : Spells (.product b) us) : Spells (.sum (.binary op a b)) (ts ++ t :: us)
  | ofSum {e : Expr} {ts : List Located} (h : Spells (.sum e) ts) : Spells (.comparison e) ts
  | compare {t : Located} {s : Symbol} {op : CompareOp} {a b : Expr} {ts us : List Located}
    (ha : Spells (.sum a) ts) (ht : t.token = .symbol s) (hop : (s, op) ∈ compareOperators)
    (hb : Spells (.sum b) us) : Spells (.comparison (.compare op a b)) (ts ++ t :: us)
  | ofComparison {e : Expr} {ts : List Located} (h : Spells (.comparison e) ts) :
    Spells (.negation e) ts
  | not {t : Located} {e : Expr} {ts : List Located} (ht : t.token = .keyword .not)
    (h : Spells (.negation e) ts) : Spells (.negation (.not e)) (t :: ts)
  | ofNegation {e : Expr} {ts : List Located} (h : Spells (.negation e) ts) : Spells (.full e) ts
  | ifElse {i j : Located} {cond then_ else_ : Expr} {ts us vs : List Located}
    (hthen : Spells (.negation then_) ts) (hi : i.token = .keyword .if_)
    (hcond : Spells (.negation cond) us) (hj : j.token = .keyword .else_)
    (helse : Spells (.full else_) vs) :
    Spells (.full (.ifElse cond then_ else_)) (ts ++ i :: (us ++ j :: vs))
  | one {e : Expr} {ts : List Located} (h : Spells (.full e) ts) : Spells (.several e) ts
  | tuple {e : Expr} {es : List Expr} {k : Located} {ts us : List Located}
    (h : Spells (.full e) ts) (hk : k.token = .symbol .comma) (hes : Spells (.items es) us) :
    Spells (.several (.tuple (e :: es))) (ts ++ k :: us)
  | noItem : Spells (.items []) []
  | lastItem {e : Expr} {ts : List Located} (h : Spells (.full e) ts) : Spells (.items [e]) ts
  | item {e : Expr} {es : List Expr} {k : Located} {ts us : List Located}
    (h : Spells (.full e) ts) (hk : k.token = .symbol .comma) (hes : Spells (.items es) us) :
    Spells (.items (e :: es)) (ts ++ k :: us)
  | noPair : Spells (.pairs []) []
  | lastPair {key value : Expr} {c : Located} {ts us : List Located}
    (hkey : Spells (.full key) ts) (hc : c.token = .symbol .colon)
    (hvalue : Spells (.full value) us) : Spells (.pairs [(key, value)]) (ts ++ c :: us)
  | pair {key value : Expr} {ps : List (Expr × Expr)} {c k : Located} {ts us vs : List Located}
    (hkey : Spells (.full key) ts) (hc : c.token = .symbol .colon)
    (hvalue : Spells (.full value) us) (hk : k.token = .symbol .comma)
    (hps : Spells (.pairs ps) vs) : Spells (.pairs ((key, value) :: ps)) (ts ++ c :: us ++ k :: vs)
  | noArgument : Spells (.arguments [] []) []
  | lastArgument {e : Expr} {ts : List Located} (h : Spells (.full e) ts) :
    Spells (.arguments [e] []) ts
  | argument {e : Expr} {args : List Expr} {kwargs : List (String × Expr)} {k : Located}
    {ts us : List Located} (h : Spells (.full e) ts) (hk : k.token = .symbol .comma)
    (hargs : Spells (.arguments args kwargs) us) :
    Spells (.arguments (e :: args) kwargs) (ts ++ k :: us)
  | lastKeyword {x : String} {value : Expr} {t a : Located} {ts : List Located}
    (ht : t.token = .ident x) (ha : a.token = .symbol .assign) (h : Spells (.full value) ts) :
    Spells (.arguments [] [(x, value)]) (t :: a :: ts)
  | keyword {x : String} {value : Expr} {kwargs : List (String × Expr)} {t a k : Located}
    {ts us : List Located} (ht : t.token = .ident x) (ha : a.token = .symbol .assign)
    (h : Spells (.full value) ts) (hk : k.token = .symbol .comma)
    (hkwargs : Spells (.arguments [] kwargs) us) :
    Spells (.arguments [] ((x, value) :: kwargs)) (t :: a :: ts ++ k :: us)

/-! ### Fragments -/

def Token.Separates (t : Token) : Prop := t = .newline ∨ t = .symbol .semicolon

/-- The tokens spell the expression, between line ends. -/
def SpellsLone (e : Expr) (ts : List Located) : Prop :=
  ∃ before us after, ts = before ++ us ++ after ∧ (∀ t ∈ before, t.token = .newline) ∧
    Spells (.several e) us ∧ ∀ t ∈ after, t.token = .newline

/-- The tokens spell what a statement does. -/
inductive SpellsAction : Action → List Located → Prop
  | pass {t : Located} (h : t.token = .keyword .pass) : SpellsAction .pass [t]
  | delete {t u : Located} {x : String} (ht : t.token = .keyword .del) (hu : u.token = .ident x) :
    SpellsAction (.delete x) [t, u]
  | raise {t : Located} {e : Expr} {ts : List Located} (ht : t.token = .keyword .raise)
    (h : Spells (.several e) ts) : SpellsAction (.raise e) (t :: ts)
  | expr {e : Expr} {ts : List Located} (h : Spells (.several e) ts) : SpellsAction (.expr e) ts
  | assign {e value : Expr} {target : Target} {a : Located} {ts us : List Located}
    (h : Spells (.several e) ts) (htarget : e.target? = some target)
    (ha : a.token = .symbol .assign) (hvalue : Spells (.several value) us) :
    SpellsAction (.assign target value) (ts ++ a :: us)

def SpellsStmt (s : Stmt) (ts : List Located) : Prop :=
  SpellsAction s.action ts ∧ ∃ t us, ts = t :: us ∧ s.line = UInt32.ofNat t.position.line

/-- The tokens spell the statements, with separators between them. -/
inductive SpellsSuite : List Stmt → List Located → Prop
  | done {ts : List Located} (h : ∀ t ∈ ts, t.token.Separates) : SpellsSuite [] ts
  | stmt {s : Stmt} {body : List Stmt} {before ts rest : List Located}
    (hbefore : ∀ t ∈ before, t.token.Separates) (hs : SpellsStmt s ts)
    (hrest : SpellsSuite body rest) (hnext : ∀ t ∈ rest.head?, t.token.Separates) :
    SpellsSuite (s :: body) (before ++ ts ++ rest)

/-! ### First tokens -/

namespace Phrase

def Opens (p : Phrase) (t : Token) : Prop :=
  match p with
  | atom _ | primary _ =>
    Parser.startsExpression t = true ∧ t ≠ .symbol .minus ∧ t ≠ .keyword .not
  | unary _ | product _ | sum _ | comparison _ =>
    Parser.startsExpression t = true ∧ t ≠ .keyword .not
  | negation _ | full _ | several _ => Parser.startsExpression t = true
  | items _ | pairs _ | arguments _ _ => True

structure Begins (p : Phrase) (ts : List Located) : Prop where
  first : ∃ t us, ts = t :: us ∧ p.Opens t.token
  second : ∀ t u us x, ts = t :: u :: us → t.token = .ident x → u.token ≠ .symbol .assign

variable {p q : Phrase} {ts : List Located} {t : Located}

theorem Begins.single (h : p.Opens t.token) : p.Begins [t] where
  first := ⟨t, [], rfl, h⟩
  second := by simp

theorem Begins.cons (h : p.Opens t.token) (hname : ∀ x, t.token ≠ .ident x) (ts : List Located) :
    p.Begins (t :: ts) where
  first := ⟨t, ts, rfl, h⟩
  second := by
    rintro _ u us x ⟨⟩ ht
    exact absurd ht (hname x)

theorem Begins.loosen (h : p.Begins ts) (hpq : ∀ t, p.Opens t → q.Opens t) : q.Begins ts where
  first := by
    obtain ⟨t, us, rfl, ht⟩ := h.first
    exact ⟨t, us, rfl, hpq _ ht⟩
  second := h.second

theorem Begins.append (h : p.Begins ts) {u : Located} {us : List Located}
    (hu : u.token ≠ .symbol .assign) : p.Begins (ts ++ u :: us) where
  first := by
    obtain ⟨t, vs, rfl, ht⟩ := h.first
    exact ⟨t, vs ++ u :: us, rfl, ht⟩
  second := by
    intro a b vs x heq ha
    obtain ⟨t, ws, rfl, -⟩ := h.first
    rcases ws with _ | ⟨w, ws⟩
    · obtain ⟨rfl, rfl, -⟩ : t = a ∧ u = b ∧ us = vs := by simpa using heq
      exact hu
    · obtain ⟨rfl, rfl, -⟩ : t = a ∧ w = b ∧ ws ++ u :: us = vs := by simpa using heq
      exact h.second t w ws x rfl ha

theorem Begins.head_ne (h : p.Begins ts) {tok : Token} (htok : ¬p.Opens tok)
    (rest : List Located) : ∀ t ∈ (ts ++ rest).head?, t.token ≠ tok := by
  obtain ⟨t, us, rfl, ht⟩ := h.first
  rintro _ ⟨⟩ rfl
  exact htok ht

end Phrase

namespace Spells

open Phrase

def IsExpression : Phrase → Prop
  | .items _ | .pairs _ | .arguments _ _ => False
  | _ => True

variable {p : Phrase} {ts : List Located}

theorem begins (h : Spells p ts) (hp : IsExpression p) : p.Begins ts := by
  induction h with
  | integer h | float h | none h | true h | false h | name h =>
    exact .single (by simp [Opens, h, Parser.startsExpression.eq_def])
  | @strings ts s more h =>
    rcases ts with _ | ⟨t, ts⟩
    · cases h
    · obtain ⟨ht, -⟩ : t.token = .str s ∧ _ := by simpa using h
      exact .cons (by simp [Opens, ht, Parser.startsExpression.eq_def]) (by simp [ht]) ts
  | ofAtom h ih | ofUnary h ih | ofProduct h ih | ofSum h ih | ofNegation h ih | one h ih =>
    exact (ih trivial).loosen fun _ => id
  | member h hl _ ih | call h hl _ _ _ _ _ ih | subscript h hl _ _ ih | ifElse h hl _ _ _ ih
  | tuple h hl _ ih => exact ((ih trivial).append (by simp [hl])).loosen fun _ => id
  | ofPrimary h ih => exact (ih trivial).loosen fun _ ht => ⟨ht.1, ht.2.2⟩
  | unit ht hr | parens ht h hr ih | list ht h hr ih | dict ht h hr ih | minusInteger ht h ih
  | minusFloat ht h ih | minus ht h hne ih | not ht h ih =>
    exact .cons (by simp [Opens, ht, Parser.startsExpression.eq_def]) (by simp [ht]) _
  | times ha ht hop hb iha ihb | plus ha ht hop hb iha ihb | compare ha ht hop hb iha ihb =>
    refine ((iha trivial).append fun h => ?_).loosen fun _ => id
    rw [ht, Token.symbol.injEq] at h
    subst h
    revert hop
    simp [productOperators, sumOperators, compareOperators]
  | ofComparison h ih => exact (ih trivial).loosen fun _ ht => ht.1
  | _ => exact hp.elim

theorem head_ne (h : Spells p ts) (hp : IsExpression p) {tok : Token}
    (htok : Parser.startsExpression tok = Bool.false) (rest : List Located) :
    ∀ t ∈ (ts ++ rest).head?, t.token ≠ tok := by
  refine (h.begins hp).head_ne (fun ht => ?_) rest
  cases p <;> simp_all [Opens, IsExpression]

theorem ne_eof (h : Spells p ts) : ∀ t ∈ ts, t.token ≠ .eof := by
  induction h with
  | @strings ts s more h =>
    intro t ht heof
    have hmem : Token.eof ∈ (s :: more).map Token.str := h ▸ heof ▸ mem_map_of_mem ht
    simp at hmem
  | _ => simp_all [or_imp]

theorem exists_cons (h : Spells p ts) (hp : IsExpression p) : ∃ t us, ts = t :: us := by
  obtain ⟨t, us, rfl, -⟩ := (h.begins hp).first
  exact ⟨t, us, rfl⟩

end Spells

variable {ts : List Located} {a : Action} {body : List Stmt}

/-! ### Tokens of fragments -/

theorem SpellsAction.exists_cons (h : SpellsAction a ts) : ∃ t us, ts = t :: us := by
  cases h with
  | pass _ | delete _ _ | raise _ _ => exact ⟨_, _, rfl⟩
  | expr h => exact h.exists_cons trivial
  | assign h =>
    obtain ⟨t, us, rfl⟩ := h.exists_cons trivial
    exact ⟨t, _, rfl⟩

theorem SpellsAction.head_not_separates (h : SpellsAction a ts) :
    ∀ t ∈ ts.head?, ¬t.token.Separates := by
  have hstarts {e : Expr} {us : List Located} (h : Spells (.several e) us) (vs : List Located) :
      ∀ t ∈ (us ++ vs).head?, ¬t.token.Separates := by
    rintro t ht (heq | heq) <;> exact h.head_ne trivial rfl vs t ht heq
  cases h with
  | pass ht | delete ht _ | raise ht _ =>
    rintro _ ⟨⟩
    simp [Token.Separates, ht]
  | expr h => simpa using hstarts h []
  | assign h _ _ _ => exact hstarts h _

theorem SpellsAction.ne_eof (h : SpellsAction a ts) : ∀ t ∈ ts, t.token ≠ .eof := by
  cases h with
  | pass h => simp [h]
  | delete ht hu => simp [ht, hu]
  | raise ht h => simpa [ht] using h.ne_eof
  | expr h => exact h.ne_eof
  | assign h _ ha hvalue => simpa [or_imp, forall_and, ha] using ⟨h.ne_eof, hvalue.ne_eof⟩

theorem Token.Separates.ne_eof {t : Token} (h : t.Separates) : t ≠ .eof := by
  rcases h with rfl | rfl <;> simp

theorem SpellsSuite.ne_eof (h : SpellsSuite body ts) :
    ∀ t ∈ ts, t.token ≠ .eof := by
  induction h with
  | done h => exact fun t ht => (h t ht).ne_eof
  | stmt hbefore hs hrest hnext ih =>
    simp only [mem_append, or_imp, forall_and]
    exact ⟨⟨fun t ht => (hbefore t ht).ne_eof, hs.1.ne_eof⟩, ih⟩

theorem SpellsSuite.separated {before : List Located} (hbefore : ∀ t ∈ before, t.token.Separates)
    (h : SpellsSuite body ts) : SpellsSuite body (before ++ ts) := by
  cases h with
  | done h =>
    refine .done fun t ht => ?_
    rcases mem_append.1 ht with ht | ht
    · exact hbefore t ht
    · exact h t ht
  | @stmt s body more us rest hmore hs hrest hnext =>
    rw [← append_assoc, ← append_assoc]
    refine .stmt (fun t ht => ?_) hs hrest hnext
    rcases mem_append.1 ht with ht | ht
    · exact hbefore t ht
    · exact hmore t ht

theorem SpellsLone.ne_eof {e : Expr} (h : SpellsLone e ts) : ∀ t ∈ ts, t.token ≠ .eof := by
  obtain ⟨before, us, after, rfl, hbefore, hus, hafter⟩ := h
  simp only [mem_append, or_imp, forall_and]
  exact ⟨⟨fun t ht => by simp [hbefore t ht], hus.ne_eof⟩, fun t ht => by simp [hafter t ht]⟩

end Bytewright
