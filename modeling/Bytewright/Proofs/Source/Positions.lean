import Bytewright.Proofs.Source.Derive
import Bytewright.Proofs.Source.Layout

/-!
# Positions of tokens and faults

A text with a fault is at fault at one of its places, whether the lexer or the parser finds it.
-/

namespace Bytewright

open List

/-! ### Parsed texts -/

namespace Lexer

variable {text : String}

theorem clean_eq_ok {tokens : List Located} (h : clean text = .ok tokens) :
    ∃ ts last, tokens = ts ++ [last] ∧ last.token = .eof ∧ (∀ t ∈ ts, t.token ≠ .eof) ∧
      ts.length ≤ text.length ∧ ∀ t ∈ tokens, t.position.IsIn text.toList := by
  have houtcome := outcome_of_tokens text
  unfold clean at h
  cases htokens : Lexer.tokens text with
  | error e =>
    rw [htokens] at h
    cases h
  | ok all =>
    rw [htokens] at h houtcome
    cases h
    obtain ⟨ts, rfl, hts, hlength⟩ := houtcome.exists_eof
    refine ⟨ts.filter fun t => !t.token.isComment, ⟨.eof, .after text.toList⟩, ?_, rfl, ?_, ?_, ?_⟩
    · rw [filter_append]
      rfl
    · exact fun t ht => hts t (mem_of_mem_filter ht)
    · rw [String.length_toList] at hlength
      exact (length_filter_le _ _).trans hlength
    · exact fun t ht => houtcome.position_of_mem t (mem_of_mem_filter ht)

/-- What a parser of the text without its comments answers. -/
theorem outcome_of_clean {α : Type} {p : Parser α} {D : α → List Located → Prop}
    (h : ∀ K c, Parser.Reads K p c fun a ts => D a ts ∧ Parser.ToEnd c ts)
    (hD : ∀ a ts, D a ts → ∀ t ∈ ts, t.token ≠ .eof) (text : String) :
    (∀ a, (clean text >>= fun ts => p.run' ⟨ts, .start⟩) = .ok a →
      ∃ ts, D a ts ∧ ts.length ≤ text.length) ∧
    ∀ e, (clean text >>= fun ts => p.run' ⟨ts, .start⟩) = .error e →
      e.position.IsIn text.toList := by
  cases hclean : clean text with
  | error e =>
    refine ⟨nofun, ?_⟩
    rintro _ ⟨⟩
    have houtcome := outcome_of_tokens text
    unfold clean at hclean
    cases htokens : tokens text with
    | error e =>
      rw [htokens] at hclean houtcome
      cases hclean
      exact houtcome
    | ok ts =>
      rw [htokens] at hclean
      cases hclean
  | ok tokens =>
    obtain ⟨ts, last, rfl, hlast, hts, hlength, hin⟩ := clean_eq_ok hclean
    have hstart : Position.start.IsIn text.toList := ⟨[], nil_prefix, rfl⟩
    obtain ⟨hok, herror⟩ := Parser.outcome_of_reads (h (·.IsIn text.toList)) hD hlast hts
      hstart hin
    exact ⟨fun a ha => ⟨ts, hok a ha, hlength⟩, herror⟩

end Lexer

theorem outcome_of_parseExpression (text : String) :
    (∀ e, parseExpression text = .ok e → ∃ ts,
      (SpellsLone e ts ∧ e.height ≤ Parser.tallest maxNesting + 1) ∧ ts.length ≤ text.length) ∧
    ∀ e, parseExpression text = .error e → e.position.IsIn text.toList :=
  Lexer.outcome_of_clean (fun _ => Parser.reads_loneExpression Parser.parses_fragment)
    (fun _ _ h => h.1.ne_eof) text

theorem outcome_of_parseStatements (text : String) :
    (∀ body, parseStatements text = .ok body → ∃ ts,
      (SpellsSuite body ts ∧ ∀ s ∈ body, s.action.height ≤ Parser.tallest maxNesting + 1) ∧
        ts.length ≤ text.length) ∧
    ∀ e, parseStatements text = .error e → e.position.IsIn text.toList :=
  Lexer.outcome_of_clean (fun _ => Parser.reads_suite Parser.parses_fragment)
    (fun _ _ h => h.1.ne_eof) text

/-- The tokens of a text are written in it one behind the other, with gaps between them, each at its
place, and the end of the text is behind all characters.  The places of the tokens increase.  A text
that is not read, or not parsed, is at fault at a place in it. -/
theorem positions_are_exact (text : String) :
    (∀ ts, Lexer.tokens text = .ok ts →
      Lexer.Laid [] [] text.toList ts ∧
        ts.Pairwise (fun t u => t.position.Precedes u.position) ∧
        ts.getLast? = some ⟨.eof, .after text.toList⟩) ∧
      ∀ e, Lexer.tokens text = .error e ∨ parseExpression text = .error e ∨
          parseStatements text = .error e → e.position.IsIn text.toList := by
  have houtcome := Lexer.outcome_of_tokens text
  constructor
  · intro ts h
    rw [h] at houtcome
    obtain ⟨us, hus, -⟩ := houtcome.exists_eof
    exact ⟨houtcome, houtcome.pairwise, by simp [hus]⟩
  · rintro e (h | h | h)
    · rwa [h] at houtcome
    · exact (outcome_of_parseExpression text).2 e h
    · exact (outcome_of_parseStatements text).2 e h

def spreadText : String := "f(\n  x, # one\n\t'\\n') \\\n= 1"

def spreadTokens : List Located :=
  [⟨.ident "f", ⟨1, 1⟩⟩, ⟨.symbol .lParen, ⟨1, 2⟩⟩, ⟨.ident "x", ⟨2, 3⟩⟩, ⟨.symbol .comma, ⟨2, 4⟩⟩,
    ⟨.comment "one", ⟨2, 6⟩⟩, ⟨.str "\n", ⟨3, 2⟩⟩, ⟨.symbol .rParen, ⟨3, 6⟩⟩,
    ⟨.symbol .assign, ⟨4, 1⟩⟩, ⟨.integer 1, ⟨4, 3⟩⟩, ⟨.eof, ⟨4, 4⟩⟩]

/-- A text over several lines, as an expression at fault behind the call. -/
theorem spreadText_positions :
    (Lexer.tokens spreadText = .ok spreadTokens ∧
      Lexer.Laid [] [] spreadText.toList spreadTokens ∧
      spreadTokens.Pairwise (fun t u => t.position.Precedes u.position) ∧
      spreadTokens.getLast? = some ⟨.eof, .after spreadText.toList⟩) ∧
    parseExpression spreadText =
      .error ⟨.unexpected .endOfExpression (.symbol .assign), ⟨4, 1⟩⟩ ∧
    Position.IsIn ⟨4, 1⟩ spreadText.toList := by
  have htokens : Lexer.tokens spreadText = .ok spreadTokens := by cbv
  have hfault : parseExpression spreadText =
      .error ⟨.unexpected .endOfExpression (.symbol .assign), ⟨4, 1⟩⟩ := by
    rw [parseExpression, Lexer.clean, htokens]
    rfl
  obtain ⟨htext, herror⟩ := positions_are_exact spreadText
  exact ⟨⟨htokens, htext _ htokens⟩, hfault, herror _ (.inr (.inl hfault))⟩

end Bytewright
