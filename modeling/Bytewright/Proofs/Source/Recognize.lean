import Bytewright.Proofs.Source.Accept

/-!
# The parser recognizes its grammar

Both directions together, for fragments as a whole.
-/

namespace Bytewright

open List

namespace Parser

namespace Level

variable {α β : Type} {cs mid rest ts : List Located} {t last : Located} {n : Nat} {e : Expr}
  {before : List Located} {body : List Stmt} {a : Action}

/-! ### Separators -/

theorem reaches_skip {p : Token → Bool} {S : Token → Prop} (hS : ∀ {t}, p t = true ↔ S t)
    (hbefore : ∀ t ∈ before, S t.token) (hmid : ∀ t ∈ mid.head?, ¬S t.token)
    (hn : before.length ≤ n) : Reaches (fun _ => skip p n) (before ++ mid) () mid := by
  induction before generalizing n with
  | nil =>
    cases n with
    | zero => exact reaches_pure
    | succ n =>
      have hstop : (mid.head?.map Located.token).any p = false := by
        rcases mid with _ | ⟨t, mid⟩
        · rfl
        · exact Bool.eq_false_iff.2 fun hp => hmid t rfl (hS.1 hp)
      refine reaches_peek_head ?_
      rw [nil_append, hstop]
      exact reaches_pure
  | cons t before ih =>
    obtain ⟨n, rfl⟩ := Nat.exists_eq_add_of_lt hn
    obtain ⟨ht, hbefore⟩ := forall_mem_cons.1 hbefore
    refine reaches_peek rfl ?_
    rw [Option.any_some, if_pos (hS.2 ht)]
    exact reaches_advance (ih hbefore (Nat.le_add_right _ n))

/-! ### The end of the text -/

theorem atEnd_cons_of_eq (ht : t.token = .eof) (pos : Position) :
    Cursor.atEnd ⟨t :: cs, pos⟩ = true := by
  simp [Cursor.atEnd, Cursor.token?, ht]

theorem atEnd_cons_of_ne (ht : t.token ≠ .eof) (pos : Position) :
    Cursor.atEnd ⟨t :: cs, pos⟩ = false := by
  rw [← Bool.not_eq_true]
  exact fun h => ht (Cursor.eq_eof_of_atEnd h rfl)

theorem reaches_atEnd {f : Level → Bool → Parser β} {b : β} (ht : t.token = .eof)
    (h : Reaches (fun level => f level true) (t :: cs) b rest) :
    Reaches (fun level => atEnd >>= f level) (t :: cs) b rest :=
  reaches_step (fun pos => ⟨pos, by rw [atEnd, atEnd_cons_of_eq ht]⟩) h

theorem reaches_atEnd_else {f : Level → Bool → Parser β} {b : β} (ht : t.token ≠ .eof)
    (h : Reaches (fun level => f level false) (t :: cs) b rest) :
    Reaches (fun level => atEnd >>= f level) (t :: cs) b rest :=
  reaches_step (fun pos => ⟨pos, by rw [atEnd, atEnd_cons_of_ne ht]⟩) h

/-! ### Fragments -/

variable {item : Level → Parser Expr}

theorem reaches_several (h : Spells (.several e) ts) (hrest : Stops extendsSeveral rest) :
    Reaches (fun level => expressionList level.full) (ts ++ rest) e rest :=
  accepts_of_spells h rest hrest

theorem ne_of_startsExpression {tok tok' : Token} (h : startsExpression tok = true)
    (h' : startsExpression tok' = false) : tok ≠ tok' := by
  rintro rfl
  rw [h] at h'
  cases h'

theorem reaches_loneExpression {after : List Located} (hbefore : ∀ t ∈ before, t.token = .newline)
    (hafter : ∀ t ∈ after, t.token = .newline) (hlast : last.token = .eof)
    (ht : startsExpression t.token = true)
    (h : Reaches (fun level => expressionList (item level)) (t :: cs) e (after ++ [last])) :
    Reaches (fun level => loneExpression (item level)) (before ++ t :: cs) e [last] := by
  have hskip : Reaches (fun _ => rounds (skip (· == .newline))) (before ++ t :: cs) ()
      (t :: cs) := by
    refine reaches_rounds (reaches_skip beq_iff_eq hbefore ?_ (by simp))
    rintro _ ⟨⟩
    exact ne_of_startsExpression ht rfl
  have hskip' : Reaches (fun _ => rounds (skip (· == .newline))) (after ++ [last]) () [last] := by
    refine reaches_rounds (reaches_skip beq_iff_eq hafter ?_ (by simp))
    rintro _ ⟨⟩
    simp [hlast]
  refine hskip.bind (reaches_atEnd_else (ne_of_startsExpression ht rfl) (h.bind ?_))
  refine hskip'.bind (reaches_atEnd hlast ?_)
  exact reaches_pure

theorem reaches_lone (h : SpellsLone e ts) (hlast : last.token = .eof) :
    Reaches (fun level => loneExpression level.full) (ts ++ [last]) e [last] := by
  obtain ⟨before, us, after, rfl, hbefore, hus, hafter⟩ := h
  have hafterStops : Stops extendsSeveral (after ++ [last]) := by
    rcases after with _ | ⟨u, after⟩
    · exact stops_cons hlast rfl
    · exact stops_cons (hafter u mem_cons_self) rfl
  have hread := reaches_several hus hafterStops
  obtain ⟨t, vs, rfl, ht⟩ := (hus.begins trivial).first
  rw [append_assoc, append_assoc]
  exact reaches_loneExpression hbefore hafter hlast ht hread

def extendsStatement (t : Token) : Bool := extendsSeveral t || t == .symbol .assign

theorem stops_several (h : Stops extendsStatement rest) : Stops extendsSeveral rest :=
  h.mono fun t ht => by simp_all [extendsStatement]

theorem action_eq_assignment {item : Parser Expr} (ht : startsExpression t.token = true)
    (pos : Position) : action item ⟨t :: cs, pos⟩ = assignment item ⟨t :: cs, pos⟩ := by
  obtain ⟨token, p⟩ := t
  cases token with
  | keyword k => cases k <;> first | rfl | cases ht
  | _ => rfl

theorem reaches_action_expr (ht : startsExpression t.token = true)
    (h : Reaches (fun level => expressionList (item level)) (t :: cs) e rest)
    (hrest : Stops extendsStatement rest) :
    Reaches (fun level => action (item level)) (t :: cs) (.expr e) rest := by
  have hassignment : Reaches (fun level => assignment (item level)) (t :: cs) (.expr e) rest :=
    reaches_step (a := t.position) (fun pos => ⟨pos, rfl⟩)
      (h.bind (reaches_eat_else (hrest.ne rfl) reaches_pure))
  exact hassignment.congr fun _ pos => action_eq_assignment ht pos

theorem reaches_assignment {value : Expr} {target : Target} {a : Located} {us : List Located}
    (h : Spells (.several e) ts) (htarget : e.target? = some target)
    (ha : a.token = .symbol .assign) (hvalue : Spells (.several value) us)
    (hrest : Stops extendsStatement rest) :
    Reaches (fun level => assignment level.full) (ts ++ a :: us ++ rest) (.assign target value)
      rest := by
  have hread : Reaches (fun level => expressionList level.full) (ts ++ a :: (us ++ rest)) e _ :=
    reaches_several h (stops_cons ha rfl)
  have hreadValue := reaches_several hvalue (stops_several hrest)
  obtain ⟨t, vs, rfl⟩ := h.exists_cons trivial
  rw [append_assoc]
  refine reaches_step (a := t.position) (fun pos => ⟨pos, rfl⟩) (hread.bind (reaches_eat ha ?_))
  rw [htarget]
  exact hreadValue.bind (reaches_isNext_else (hrest.ne rfl) reaches_pure)

theorem reaches_action (h : SpellsAction a ts) (hrest : Stops extendsStatement rest) :
    Reaches (fun level => action level.full) (ts ++ rest) a rest := by
  cases h with
  | pass h =>
    exact reaches_peek h (reaches_advance reaches_pure)
  | delete ht hu =>
    refine reaches_peek ht (reaches_advance (reaches_advance ?_))
    rw [hu]
    exact reaches_pure
  | raise ht h =>
    have hread := reaches_several h (stops_several hrest)
    exact reaches_peek ht (reaches_advance (hread.bind reaches_pure))
  | expr h =>
    have hread := reaches_several h (stops_several hrest)
    obtain ⟨t, us, rfl, ht⟩ := (h.begins trivial).first
    exact reaches_action_expr ht hread hrest
  | assign h htarget ha hvalue =>
    have hread := reaches_assignment h htarget ha hvalue hrest
    obtain ⟨t, us, rfl, ht⟩ := (h.begins trivial).first
    exact hread.congr fun level pos => action_eq_assignment ht pos

theorem reaches_statement (h : Reaches (fun level => action (item level)) (t :: cs) a rest) :
    Reaches (fun level => statement (item level)) (t :: cs) ⟨a, UInt32.ofNat t.position.line⟩
      rest :=
  reaches_step (a := t.position) (fun pos => ⟨pos, rfl⟩) (h.bind reaches_pure)

theorem reaches_skip_end (hts : ∀ t ∈ ts, t.token.Separates) (hlast : last.token = .eof) :
    Reaches (fun _ => rounds (skip isSeparator)) (ts ++ [last]) () [last] := by
  refine reaches_rounds (reaches_skip isSeparator_iff hts ?_ (by simp))
  rintro _ ⟨⟩ h
  exact h.ne_eof hlast

theorem reaches_statements_end (hlast : last.token = .eof) :
    Reaches (fun level => statements (item level) n) [last] [] [last] := by
  cases n with
  | zero => exact reaches_pure
  | succ n => exact reaches_atEnd hlast reaches_pure

theorem reaches_statements_cons {s : Stmt} (hlast : last.token = .eof) (ht : t.token ≠ .eof)
    (hnext : ∀ t ∈ ts.head?, t.token.Separates)
    (hs : Reaches (fun level => statement (item level)) (t :: cs) s (ts ++ [last]))
    (hskip : Reaches (fun _ => rounds (skip isSeparator)) (ts ++ [last]) () mid)
    (hbody : Reaches (fun level => statements (item level) n) mid body [last]) :
    Reaches (fun level => statements (item level) (n + 1)) (t :: cs) (s :: body) [last] := by
  have hmore : Reaches (fun level => do
      rounds (skip isSeparator)
      return s :: (← statements (item level) n)) (ts ++ [last]) (s :: body) [last] :=
    hskip.bind (hbody.bind reaches_pure)
  refine reaches_atEnd_else ht (hs.bind ?_)
  rcases ts with _ | ⟨u, ts⟩
  · exact reaches_atEnd hlast (reaches_peek rfl hmore)
  · have hu := hnext u rfl
    refine reaches_atEnd_else hu.ne_eof (reaches_peek rfl ?_)
    rw [Option.any_some, isSeparator_iff.2 hu]
    exact hmore

theorem reaches_statements (h : SpellsSuite body ts) (hlast : last.token = .eof) :
    ∃ mid, mid.length ≤ ts.length + 1 ∧
      Reaches (fun _ => rounds (skip isSeparator)) (ts ++ [last]) () mid ∧
      ∀ n, mid.length ≤ n → Reaches (fun level => statements level.full n) mid body [last] := by
  induction h with
  | done h =>
    exact ⟨[last], by simp, reaches_skip_end h hlast, fun n _ => reaches_statements_end hlast⟩
  | @stmt s body before us rest hbefore hs hrest hnext ih =>
    obtain ⟨action, line⟩ := s
    obtain ⟨haction, t, vs, rfl, rfl⟩ := hs
    obtain ⟨mid, hlength, hskip, hbody⟩ := ih
    refine ⟨t :: vs ++ (rest ++ [last]), by simp; omega, ?_, fun n hn => ?_⟩
    · rw [append_assoc, append_assoc]
      refine reaches_rounds (reaches_skip isSeparator_iff hbefore ?_ (by simp))
      rintro _ ⟨⟩
      exact haction.head_not_separates t rfl
    · simp only [length_append, length_cons, length_nil] at hn
      obtain ⟨n, rfl⟩ : ∃ k, n = k + 1 := ⟨n - 1, by omega⟩
      have hstops : Stops extendsStatement (rest ++ [last]) := by
        rcases rest with _ | ⟨u, rest⟩
        · exact stops_cons hlast rfl
        · rcases hnext u rfl with hu | hu <;> exact stops_cons hu rfl
      exact reaches_statements_cons hlast (haction.ne_eof t mem_cons_self) hnext
        (reaches_statement (reaches_action haction hstops)) hskip (hbody n (by omega))

theorem reaches_suite (h : SpellsSuite body ts) (hlast : last.token = .eof) :
    Reaches (fun level => suite level.full) (ts ++ [last]) body [last] := by
  obtain ⟨mid, -, hskip, hbody⟩ := reaches_statements h hlast
  exact hskip.bind (reaches_rounds (hbody _ (Nat.le_refl _)))

/-! ### Recognition -/

theorem Reaches.unique {p : Level → Parser α} {a b : α} {rest' : List Located}
    (ha : Reaches p cs a rest) (hb : Reaches p cs b rest') : a = b := by
  obtain ⟨ample, ha⟩ := ha
  obtain ⟨ample', hb⟩ := hb
  rcases ha (max ample ample') .start with ⟨_, ha⟩ | ⟨hshort, -⟩
  · rcases hb (max ample ample') .start with ⟨_, hb⟩ | ⟨hshort, -⟩
    · rw [ha] at hb
      cases hb
      rfl
    · exact absurd (Nat.le_max_right _ _) hshort
  · exact absurd (Nat.le_max_left _ _) hshort

end Level

end Parser

/-- What is parsed is derived, what is derived is parsed unless it is nested too deeply, and nothing
has two derivations. -/
structure Recognizes {α : Type} (Derived : α → Prop) (result : Except FragmentError α) : Prop where
  derived : ∀ a, result = .ok a → Derived a
  unique : ∀ a b, Derived a → Derived b → a = b
  parsed : ∀ a, Derived a →
    result = .ok a ∨ ∃ pos, result = .error ⟨.tooDeep maxNesting, pos⟩
  refused : (∀ a, ¬Derived a) → ∃ error, result = .error error

theorem recognizes_of_reaches {α : Type} {Derived : α → Prop} {p : Parser.Level → Parser α}
    {cs rest : List Located}
    (hsound : ∀ a, (p (.within maxNesting)).run' ⟨cs, .start⟩ = .ok a → Derived a)
    (hreaches : ∀ a, Derived a → Parser.Level.Reaches p cs a rest) :
    Recognizes Derived ((p (.within maxNesting)).run' ⟨cs, .start⟩) := by
  refine ⟨hsound, fun a b ha hb => (hreaches a ha).unique (hreaches b hb), fun a ha => ?_,
    fun hnone => ?_⟩
  · obtain ⟨ample, h⟩ := hreaches a ha
    show Prod.fst <$> p (.within maxNesting) ⟨cs, .start⟩ = _ ∨ ∃ pos, Prod.fst <$> p _ _ = _
    rcases h maxNesting .start with ⟨pos, h⟩ | ⟨-, pos, h⟩
    · rw [h]
      exact .inl rfl
    · rw [h]
      exact .inr ⟨pos, rfl⟩
  · cases h : (p (.within maxNesting)).run' ⟨cs, .start⟩ with
    | error e => exact ⟨e, rfl⟩
    | ok a => exact absurd (hsound a h) (hnone a)

/-- The parser recognizes its grammar: for tokens whose only end of text is the last one, a lone
expression and a suite are parsed to the tree that the grammar derives. -/
theorem parser_recognizes_grammar (ts : List Located) (last : Located) (hlast : last.token = .eof)
    (hts : ∀ t ∈ ts, t.token ≠ .eof) :
    Recognizes (SpellsLone · ts)
      ((Parser.loneExpression Parser.expression).run' ⟨ts ++ [last], .start⟩) ∧
    Recognizes (SpellsSuite · ts) ((Parser.suite Parser.expression).run'
      ⟨ts ++ [last], .start⟩) := by
  have hlist : Parser.Parses (fun _ => True) _ _ _ := Parser.parses_fragment
  constructor
  · obtain ⟨hsound, -⟩ := Parser.outcome_of_reads (Parser.reads_loneExpression hlist)
      (fun _ _ h => h.1.ne_eof) hlast hts trivial fun _ _ => trivial
    exact recognizes_of_reaches (p := fun level => Parser.loneExpression level.full)
      (fun e h => (hsound e h).1) fun e he => Parser.Level.reaches_lone he hlast
  · obtain ⟨hsound, -⟩ := Parser.outcome_of_reads (Parser.reads_suite hlist)
      (fun _ _ h => h.1.ne_eof) hlast hts trivial fun _ _ => trivial
    exact recognizes_of_reaches (p := fun level => Parser.suite level.full)
      (fun body h => (hsound body h).1) fun body hbody => Parser.Level.reaches_suite hbody hlast

def conditionalTokens : List Located :=
  [.ident "x", .symbol .dot, .ident "y", .symbol .assign, .symbol .minus, .integer 1, .keyword .if_,
    .keyword .not, .ident "a", .keyword .else_, .ident "f", .symbol .lParen, .ident "b",
    .symbol .comma, .ident "k", .symbol .assign, .integer 2, .symbol .comma, .symbol .rParen,
    .symbol .comma, .symbol .semicolon, .keyword .del, .ident "x", .newline].map (⟨·, ⟨1, 1⟩⟩)

def conditionalSuite : List Stmt :=
  [⟨.assign (.attribute (.name "x") "y") (.tuple [.ifElse (.not (.name "a")) (.literal (.int (-1)))
      (.call (.name "f") [.name "b"] [("k", .literal (.int 2))])]), 1⟩,
    ⟨.delete "x", 1⟩]

/-- The grammar derives exactly this tree from the tokens, and no lone expression. -/
theorem conditionalTokens_recognized :
    (∀ t ∈ conditionalTokens, t.token ≠ .eof) ∧ SpellsSuite conditionalSuite conditionalTokens ∧
      (∀ body, SpellsSuite body conditionalTokens → body = conditionalSuite) ∧
      ∀ e, ¬SpellsLone e conditionalTokens := by
  have hts : ∀ t ∈ conditionalTokens, t.token ≠ .eof := by decide
  obtain ⟨hlone, hsuite⟩ := parser_recognizes_grammar conditionalTokens ⟨.eof, ⟨2, 1⟩⟩ rfl hts
  have hderived := hsuite.derived conditionalSuite rfl
  refine ⟨hts, hderived, fun body hbody => hsuite.unique _ _ hbody hderived, fun e he => ?_⟩
  rcases hlone.parsed e he with h | ⟨pos, h⟩
  · cases h
  · cases h

end Bytewright
