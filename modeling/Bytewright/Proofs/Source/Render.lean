import Bytewright.Proofs.Source.Recognize
import Bytewright.Proofs.Source.Spelling

/-!
# Texts of expressions

A text that is made of the texts of tokens is parsed as soon as its tokens are.
-/

namespace Bytewright

namespace Parser

namespace Level

variable {α : Type} {p : Parser α} {cs rest : List Located} {a : α}

/-- A parser of one level, whose room is known. -/
abbrev Returns (p : Parser α) (cs : List Located) (a : α) (rest : List Located) : Prop :=
  Reaches (fun _ => p) cs a rest

theorem run'_of_returns (h : Returns p cs a rest) (last : Position) :
    p.run' ⟨cs, last⟩ = .ok a := by
  obtain ⟨ample, h⟩ := h
  obtain ⟨last', hok⟩ : ∃ last', p ⟨cs, last⟩ = .ok (a, ⟨rest, last'⟩) :=
    (h ample last).resolve_right fun hshort => hshort.1 le_rfl
  show Prod.fst <$> p ⟨cs, last⟩ = _
  rw [hok]
  rfl

theorem returns_suite {item : Parser Expr} {t last : Located} {ts : List Located} {e : Expr}
    (h : Returns (expressionList item) (t :: ts) e [last]) (ht : startsExpression t.token = true)
    (hlast : last.token = .eof) :
    Returns (suite item) (t :: ts) [⟨.expr e, UInt32.ofNat t.position.line⟩] [last] := by
  have hnone : ∀ u ∈ ([] : List Located), u.token.Separates := by simp
  have hend : ∀ u ∈ ([] : List Located).head?, u.token.Separates := by simp
  have hskip : Returns (rounds (skip isSeparator)) (t :: ts) () (t :: ts) := by
    refine reaches_rounds (reaches_skip (p := isSeparator) isSeparator_iff hnone ?_ (Nat.zero_le _))
    rintro _ ⟨⟩ (h | h)
    · exact ne_of_startsExpression ht rfl h
    · exact ne_of_startsExpression ht rfl h
  have hstatement : Returns (statement item) (t :: ts) _ [last] :=
    reaches_statement (reaches_action_expr ht h (stops_cons hlast rfl))
  refine hskip.bind (reaches_rounds ?_)
  exact reaches_statements_cons hlast (ne_of_startsExpression ht rfl) hend hstatement
    (reaches_skip_end hnone hlast) (reaches_statements_end hlast)

end Level

theorem parse_of_renders {text : String} {t : Token} {ts : List Token} {e : Expr}
    (htext : Lexer.Renders (t :: ts) text.toList) (ht : startsExpression t = true)
    (h : ∀ cs last, cs.map Located.token = t :: ts → last.token = .eof →
      Level.Returns (expressionList expression) (cs ++ [last]) e [last]) :
    parseExpression text = .ok e ∧ ∃ line, parseStatements text = .ok [⟨.expr e, line⟩] := by
  obtain ⟨located, hclean, htokens⟩ := htext.exists_clean
  obtain ⟨cs, lasts, rfl, hcs, hlasts⟩ := List.map_eq_append_iff.1 htokens
  obtain ⟨last, rfl, hlast⟩ := List.map_eq_singleton_iff.1 hlasts
  obtain ⟨u, us, rfl, hu, -⟩ := List.map_eq_cons_iff.1 hcs
  have hreturns := h (u :: us) last hcs hlast
  have hstarts : startsExpression u.token = true := by rw [hu, ht]
  have hnone : ∀ u ∈ ([] : List Located), u.token = .newline := by simp
  have hlone : Level.Returns (loneExpression expression) (u :: (us ++ [last])) e [last] :=
    Level.reaches_loneExpression hnone hnone hlast hstarts hreturns
  refine ⟨?_, UInt32.ofNat u.position.line, ?_⟩
  · simp only [parseExpression, bind, Except.bind, hclean]
    exact Level.run'_of_returns hlone .start
  · simp only [parseStatements, bind, Except.bind, hclean]
    exact Level.run'_of_returns (Level.returns_suite hreturns hstarts hlast) .start

end Parser

end Bytewright
