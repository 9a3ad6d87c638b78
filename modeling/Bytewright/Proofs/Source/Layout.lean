import Bytewright.Proofs.Source.Lexeme

/-!
# Where tokens are

A text is made of lexemes and of gaps between them: blanks, continued lines, and line ends inside of
brackets.
-/

namespace Bytewright

open List

/-! ### Places -/

namespace Position

/-- The place behind some characters.  Lines are counted by the line ends, and columns by the
characters since the last one, both from one. -/
def after (cs : List Char) : Position :=
  ⟨cs.count '\n' + 1, (cs.rtakeWhile (· != '\n')).length + 1⟩

/-- The place is that of a character of the text, which may be the end of a line, or that behind the
last one. -/
def IsIn (p : Position) (text : List Char) : Prop := ∃ front, front <+: text ∧ p = after front

/-- The first position is before the second. -/
def Precedes (p q : Position) : Prop := p.line < q.line ∨ p.line = q.line ∧ p.col < q.col

theorem Precedes.trans {p q r : Position} (h : p.Precedes q) (h' : q.Precedes r) :
    p.Precedes r := by
  unfold Precedes at *
  omega

theorem precedes_next (p : Position) (c : Char) : p.Precedes (p.next c) := by
  unfold next
  split
  · exact .inl (Nat.lt_succ_self _)
  · exact .inr ⟨rfl, Nat.lt_succ_self _⟩

theorem precedes_past (p : Position) (c : Char) (cs : List Char) :
    p.Precedes (p.past (c :: cs)) := by
  induction cs generalizing p c with
  | nil => exact p.precedes_next c
  | cons d cs ih => exact (p.precedes_next c).trans (ih _ d)

theorem after_concat (cs : List Char) (c : Char) : after (cs ++ [c]) = (after cs).next c := by
  by_cases hc : c = '\n'
  · subst hc
    simp [after, next, rtakeWhile_concat_neg]
  · have hcount : count '\n' [c] = 0 := count_eq_zero.2 (by simpa using Ne.symm hc)
    rw [after, rtakeWhile_concat_pos _ _ _ (by simpa using hc), count_append, hcount, next,
      if_neg hc]
    simp [after]

theorem past_after (cs ds : List Char) : (after cs).past ds = after (cs ++ ds) := by
  induction ds generalizing cs with
  | nil => simp [past]
  | cons d ds ih =>
    have hstep : (after cs).past (d :: ds) = (after (cs ++ [d])).past ds := by
      rw [after_concat]
      rfl
    rw [hstep, ih, append_assoc, singleton_append]

end Position

/-! ### Brackets -/

def Token.opens : Token → Bool
  | symbol .lParen | symbol .lBracket | symbol .lBrace => true
  | _ => false

def Token.closes : Token → Bool
  | symbol .rParen | symbol .rBracket | symbol .rBrace => true
  | _ => false

namespace Lexer

/-- A bracket is open behind the tokens: since one of them, more are opened than closed. -/
def InBrackets (ts : List Token) : Prop :=
  ∃ us, us <:+ ts ∧ us.countP Token.closes < us.countP Token.opens

-- the depth is the surplus since the last time that it was zero
theorem exists_surplus (ts : List Token) :
    ∃ us, us <:+ ts ∧
      us.countP Token.opens = ts.foldl Token.depthAfter 0 + us.countP Token.closes := by
  induction ts using List.reverseRecOn with
  | nil => exact ⟨[], nil_suffix, rfl⟩
  | append_singleton ts t ih =>
    obtain ⟨us, hus, hsurplus⟩ := ih
    rw [foldl_concat]
    by_cases hzero : t.depthAfter (ts.foldl Token.depthAfter 0) = 0
    · exact ⟨[], nil_suffix, by simp [hzero]⟩
    · refine ⟨us ++ [t], suffix_concat_iff.2 (.inr ⟨us, rfl, hus⟩), ?_⟩
      rw [countP_append, countP_append, hsurplus]
      cases t with
      | symbol s =>
        cases s <;> simp [Token.opens, Token.closes, Token.depthAfter] at hzero ⊢ <;> omega
      | _ => simp [Token.opens, Token.closes, Token.depthAfter]

theorem inBrackets_of_depth_pos {ts : List Token} (h : 0 < ts.foldl Token.depthAfter 0) :
    InBrackets ts := by
  obtain ⟨us, hus, hsurplus⟩ := exists_surplus ts
  exact ⟨us, hus, by omega⟩

/-! ### Gaps -/

/-- The characters are skipped. -/
inductive Gap (inBrackets : Prop) : List Char → Prop
  | nil : Gap inBrackets []
  | blank {c : Char} {cs : List Char} (hc : c = ' ' ∨ c = '\t' ∨ c = '\r')
      (h : Gap inBrackets cs) : Gap inBrackets (c :: cs)
  | continued {cs : List Char} (h : Gap inBrackets cs) : Gap inBrackets ('\\' :: '\n' :: cs)
  | newline {cs : List Char} (hopen : inBrackets) (h : Gap inBrackets cs) :
      Gap inBrackets ('\n' :: cs)

variable {inBrackets : Prop} {c : Char} {cs ds : List Char} {t : Token} {k depth : Nat}

theorem Gap.append (h : Gap inBrackets cs) (h' : Gap inBrackets ds) :
    Gap inBrackets (cs ++ ds) := by
  induction h with
  | nil => exact h'
  | blank hc _ ih => exact .blank hc ih
  | continued _ ih => exact .continued ih
  | newline hopen _ ih => exact .newline hopen ih

theorem gap_of_skipped? (hdepth : 0 < depth → inBrackets)
    (h : skipped? depth c cs = some k) : Gap inBrackets (c :: cs.take k) := by
  unfold skipped? at h
  split at h
  · cases h
    exact .blank (.inl rfl) .nil
  · cases h
    exact .blank (.inr (.inl rfl)) .nil
  · cases h
    exact .blank (.inr (.inr rfl)) .nil
  · split_ifs at h with hopen
    cases h
    exact .newline (hdepth hopen) .nil
  · cases h
    exact .continued .nil
  · cases h

/-! ### Texts -/

/-- The characters, which stand behind those `before` and behind the tokens `read`, are gaps and the
lexemes of the tokens, each of which is at the place of the first character of its lexeme.  The last
one is the end of the text. -/
inductive Laid : List Char → List Token → List Char → List Located → Prop
  | eof {before gap : List Char} {read : List Token} (hgap : Gap (InBrackets read) gap) :
      Laid before read gap [⟨.eof, .after (before ++ gap)⟩]
  | token {before gap chars rest : List Char} {read : List Token} {t : Token} {ts : List Located}
      (hgap : Gap (InBrackets read) gap) (ht : Written t chars)
      (hrest : Laid (before ++ gap ++ chars) (read ++ [t]) rest ts) :
      Laid before read (gap ++ chars ++ rest) (⟨t, .after (before ++ gap)⟩ :: ts)

variable {before gap : List Char} {read : List Token} {ts : List Located} {position : Position}

theorem outcome_of_tokensFrom (hposition : position = .after (before ++ gap))
    (hdepth : depth = read.foldl Token.depthAfter 0) (hgap : Gap (InBrackets read) gap) :
    match tokensFrom position depth cs with
    | .ok ts => Laid before read (gap ++ cs) ts
    | .error e => e.position.IsIn (before ++ (gap ++ cs)) := by
  fun_induction tokensFrom position depth cs generalizing before gap read with
  | case1 position depth =>
    rw [hposition, append_nil]
    exact .eof hgap
  | case2 position depth c cs k hskip ih =>
    have hskipped : Gap (InBrackets read) (c :: cs.take k) :=
      gap_of_skipped? (fun hpos => inBrackets_of_depth_pos (hdepth ▸ hpos)) hskip
    have hrest := @ih before (gap ++ c :: cs.take k) read
      (by rw [hposition, Position.past_after, append_assoc]) hdepth (hgap.append hskipped)
    rwa [append_assoc, cons_append, take_append_drop] at hrest
  | case3 position depth c cs hskip k fault hlexeme =>
    refine ⟨before ++ gap ++ (c :: cs).take k, ?_, by rw [hposition, Position.past_after]⟩
    rw [← append_assoc]
    exact (prefix_append_right_inj _).2 <| take_prefix k _
  | case4 position depth c cs hskip t k hlexeme rest hrest ih =>
    rw [hrest] at ih
    have hlaid := @ih (before ++ gap ++ c :: cs.take k) [] (read ++ [t])
      (by rw [hposition, Position.past_after, append_nil]) (by rw [foldl_concat, hdepth]) .nil
    have htoken := Laid.token hgap (written_of_lexeme hlexeme) hlaid
    rwa [append_assoc, nil_append, cons_append, take_append_drop, ← hposition] at htoken
  | case5 position depth c cs hskip t k hlexeme e hrest ih =>
    rw [hrest] at ih
    have herror := @ih (before ++ gap ++ c :: cs.take k) [] (read ++ [t])
      (by rw [hposition, Position.past_after, append_nil]) (by rw [foldl_concat, hdepth]) .nil
    simpa using herror

theorem outcome_of_tokens (text : String) :
    match tokens text with
    | .ok ts => Laid [] [] text.toList ts
    | .error e => e.position.IsIn text.toList :=
  @outcome_of_tokensFrom text.toList 0 [] [] [] .start rfl rfl .nil

theorem Laid.position_of_mem (h : Laid before read cs ts) :
    ∀ t ∈ ts, ∃ front, front <+: cs ∧ t.position = .after (before ++ front) := by
  induction h with
  | @eof before gap read hgap => exact forall_mem_singleton.2 ⟨gap, prefix_rfl, rfl⟩
  | @token before gap chars rest read t ts hgap ht hrest ih =>
    refine forall_mem_cons.2 ⟨⟨gap, ?_, rfl⟩, fun u hu => ?_⟩
    · rw [append_assoc]
      exact prefix_append gap _
    · obtain ⟨front, hfront, hu⟩ := ih u hu
      exact ⟨gap ++ chars ++ front, (prefix_append_right_inj _).2 hfront, by simp [hu]⟩

theorem Laid.pairwise (h : Laid before read cs ts) :
    ts.Pairwise fun t u => t.position.Precedes u.position := by
  induction h with
  | eof => exact pairwise_singleton _ _
  | @token before gap chars rest read t ts hgap ht hrest ih =>
    refine pairwise_cons.2 ⟨fun u hu => ?_, ih⟩
    obtain ⟨front, -, hu⟩ := hrest.position_of_mem u hu
    obtain ⟨c, cs, rfl⟩ := exists_cons_of_ne_nil ht.ne_nil
    rw [hu, append_assoc]
    exact Position.past_after (before ++ gap) _ ▸ Position.precedes_past _ c (cs ++ front)

/-- The end of the text is the last token and no other one, and there are not more of the others
than characters. -/
theorem Laid.exists_eof (h : Laid before read cs ts) :
    ∃ us, ts = us ++ [⟨.eof, .after (before ++ cs)⟩] ∧ (∀ t ∈ us, t.token ≠ .eof) ∧
      us.length ≤ cs.length := by
  induction h with
  | eof => exact ⟨[], rfl, by simp, Nat.zero_le _⟩
  | @token before gap chars rest read t ts hgap ht hrest ih =>
    obtain ⟨us, rfl, hus, hlength⟩ := ih
    have hne : t ≠ .eof := by
      rintro rfl
      cases ht
    have hchars := length_pos_of_ne_nil ht.ne_nil
    refine ⟨⟨t, .after (before ++ gap)⟩ :: us, by simp, forall_mem_cons.2 ⟨hne, hus⟩, ?_⟩
    simp only [length_append, length_cons]
    omega

end Lexer

end Bytewright
