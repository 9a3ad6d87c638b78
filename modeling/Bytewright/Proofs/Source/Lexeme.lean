import Bytewright.Proofs.Source.Spelling

/-!
# Lexemes

A reader that answers with a token has read one of its lexemes, and has counted its characters.
-/

namespace Bytewright

open List

namespace Lexer

/-! ### Lexemes -/

/-- The body of a string between two quotes, and the characters that it stands for. -/
inductive Quoted (quote : Char) : List Char → List Char → Prop
  | nil : Quoted quote [] []
  | escaped {c d : Char} {cs ds : List Char} (hd : unescape? c = some d) (h : Quoted quote cs ds) :
      Quoted quote ('\\' :: c :: cs) (d :: ds)
  | plain {c : Char} {cs ds : List Char} (hc : c ∉ [quote, '\\', '\n']) (h : Quoted quote cs ds) :
      Quoted quote (c :: cs) (c :: ds)

/-- The characters of a number, with a point or an exponent or without, and what they spell. -/
inductive Numeral : Bool → List Char → List Char → Prop
  | nil : Numeral false [] []
  | digit {float : Bool} {c : Char} {cs ds : List Char} (hc : c.isDigit = true)
      (h : Numeral float cs ds) : Numeral float (c :: cs) (c :: ds)
  | underscore {float : Bool} {cs ds : List Char} (h : Numeral float cs ds) :
      Numeral float ('_' :: cs) ds
  | point {float : Bool} {cs ds : List Char} (h : Numeral float cs ds) :
      Numeral true ('.' :: cs) ('.' :: ds)
  | exponent {float : Bool} {c : Char} {cs ds : List Char} (hc : c = 'e' ∨ c = 'E')
      (sign : List Char) (hsign : sign ∈ [[], ['+'], ['-']]) (h : Numeral float cs ds) :
      Numeral true (c :: (sign ++ cs)) ('e' :: (sign ++ ds))

/-- The characters write the token. -/
inductive Written : Token → List Char → Prop
  | newline : Written .newline ['\n']
  | symbol (s : Symbol) : Written (.symbol s) s.spelling.toList
  | keyword (k : Keyword) : Written (.keyword k) k.word.toList
  | ident {c : Char} {cs : List Char} (hc : Text.startsWord c = true)
      (hcs : ∀ d ∈ cs, Text.continuesWord d = true)
      (hkeyword : ∀ k : Keyword, k.word.toList ≠ c :: cs) :
      Written (.ident (String.ofList (c :: cs))) (c :: cs)
  | comment {cs : List Char} (hcs : '\n' ∉ cs) :
      Written (.comment (String.ofList (Text.trim cs))) ('#' :: cs)
  | str {quote : Char} {cs ds : List Char} (hquote : quote = '"' ∨ quote = '\'')
      (h : Quoted quote cs ds) : Written (.str (String.ofList ds)) (quote :: (cs ++ [quote]))
  | hexadecimal {n : Int64} {mark : Char} {cs : List Char} (hmark : mark = 'x' ∨ mark = 'X')
      (hne : cs ≠ []) (hcs : ∀ d ∈ cs, isHexDigit d = true)
      (hn : n.toInt = (cs.foldl (fun n c => 16 * n + hexValue c) 0 : Nat)) :
      Written (.integer n) ('0' :: mark :: cs)
  | decimal {n : Int64} {c : Char} {cs ds : List Char} (hc : c.isDigit = true)
      (h : Numeral false (c :: cs) ds) (hn : n.toInt = Decimal.numeral ds) :
      Written (.integer n) (c :: cs)
  | float {x : Binary64} {c : Char} {cs ds : List Char} (hc : c.isDigit = true ∨ c = '.')
      (h : Numeral true (c :: cs) ds) (hx : Decimal.read? ds = some x) :
      Written (.float x) (c :: cs)

theorem Written.ne_nil {t : Token} {cs : List Char} (h : Written t cs) : cs ≠ [] := by
  cases h with
  | symbol s => cases s <;> decide
  | keyword k => cases k <;> decide
  | _ => exact cons_ne_nil _ _

/-! ### Reading lexemes -/

variable {c : Char} {cs : List Char} {t : Token} {k : Nat}

theorem quoted_of_stringBody {quote : Char} {used : Nat} {body : List Char}
    (h : stringBody quote used body cs = .ok (t, k)) :
    ∃ inner ds rest, cs = inner ++ quote :: rest ∧ Quoted quote inner ds ∧
      t = .str (String.ofList (body.reverse ++ ds)) ∧ k = used + (inner.length + 1) := by
  fun_induction stringBody quote used body cs with
  | case1 | case2 | case4 | case6 => cases h
  | case3 used body c cs d hd ih =>
    obtain ⟨inner, ds, rest, rfl, hinner, ht, rfl⟩ := ih h
    refine ⟨'\\' :: c :: inner, d :: ds, rest, rfl, .escaped hd hinner, by simpa using ht, ?_⟩
    simp only [length_cons]
    omega
  | case5 used body cs =>
    cases h
    exact ⟨[], [], cs, rfl, .nil, by rw [append_nil], rfl⟩
  | case7 used body c cs hlone hescape hquote hbreak ih =>
    have hslash : c ≠ '\\' := by
      rintro rfl
      rcases cs with _ | ⟨d, ds⟩
      · exact hlone rfl rfl
      · exact hescape d ds rfl rfl
    obtain ⟨inner, ds, rest, rfl, hinner, ht, rfl⟩ := ih h
    refine ⟨c :: inner, c :: ds, rest, rfl, .plain (by simp [hquote, hslash, hbreak]) hinner,
      by simpa using ht, ?_⟩
    simp only [length_cons]
    omega

theorem written_of_stringBody {quote : Char} (hquote : quote = '"' ∨ quote = '\'')
    (h : stringBody quote 0 [] cs = .ok (t, k)) : Written t (quote :: cs.take k) := by
  obtain ⟨inner, ds, rest, rfl, hinner, rfl, rfl⟩ := quoted_of_stringBody h
  have htake : (inner ++ quote :: rest).take (0 + (inner.length + 1)) = inner ++ [quote] := by
    rw [Nat.zero_add, take_length_add_append]
    rfl
  rw [htake]
  exact .str hquote hinner

theorem take_length_takeWhile (p : Char → Bool) (cs : List Char) :
    cs.take (cs.takeWhile p).length = cs.takeWhile p := by
  have hfront : cs.takeWhile p <+: cs := takeWhile_prefix p
  exact (prefix_iff_eq_take.1 hfront).symm

theorem written_of_comment (cs : List Char) :
    Written (comment cs).1 ('#' :: cs.take (comment cs).2) := by
  rw [comment, take_length_takeWhile]
  refine .comment fun hmem => ?_
  simpa using mem_takeWhile_imp hmem

theorem written_of_word (hc : Text.startsWord c = true) (cs : List Char) :
    Written (word c cs).1 (c :: cs.take (word c cs).2) := by
  unfold word
  dsimp only
  split
  · next k hk =>
    have hword : k.word = String.ofList (c :: cs.takeWhile Text.continuesWord) := by
      simpa using find?_some hk
    have htoken := Written.keyword k
    rwa [hword, String.toList_ofList, ← take_length_takeWhile] at htoken
  · next hk =>
    rw [take_length_takeWhile]
    refine .ident hc (fun d hd => mem_takeWhile_imp hd) fun k heq => ?_
    have hne := find?_eq_none.1 hk k (by cases k <;> simp [Keyword.all])
    exact hne (by simp [← heq])

theorem written_of_symbol (h : symbol c cs = .ok (t, k)) : Written t (c :: cs.take k) := by
  have hsingle {s : Symbol} (hs : single? c = some s) : s.spelling.toList = [c] := by
    unfold single? at hs
    split at hs <;> cases hs <;> rfl
  have hdouble {s : Symbol} {d : Char} (hs : double? c d = some s) :
      s.spelling.toList = [c, d] := by
    unfold double? at hs
    split at hs <;> cases hs <;> rfl
  unfold symbol at h
  split at h
  · next s hs =>
    cases h
    obtain ⟨d, hd, hs⟩ := Option.bind_eq_some_iff.1 hs
    obtain ⟨rest, rfl⟩ := head?_eq_some_iff.1 hd
    exact hdouble hs ▸ .symbol s
  · split at h
    · next s hs =>
      cases h
      exact hsingle hs ▸ .symbol s
    · cases h

/-! ### Numbers -/

theorem numeral_of_decimalChars {isFloat float : Bool} {text : List Char} {n : Nat}
    (h : decimalChars isFloat cs = (text, float, n)) :
    ∃ marked, Numeral marked (cs.take n) text ∧ float = (isFloat || marked) := by
  fun_induction decimalChars isFloat cs generalizing text float n with
  | case1 | case4 | case9 =>
    cases h
    exact ⟨false, .nil, by simp⟩
  | case2 isFloat c cs hc _ _ _ hrest ih =>
    cases h
    obtain ⟨marked, hnumeral, rfl⟩ := ih hrest
    exact ⟨marked, .digit hc hnumeral, rfl⟩
  | case3 isFloat cs _ _ _ hrest _ ih =>
    cases h
    obtain ⟨marked, hnumeral, rfl⟩ := ih hrest
    exact ⟨marked, .underscore hnumeral, rfl⟩
  | case5 isFloat c cs _ _ hpoint _ _ _ _ hrest ih =>
    cases h
    obtain ⟨marked, hnumeral, rfl⟩ := ih hrest
    obtain rfl : c = '.' := by simp_all
    exact ⟨true, .point hnumeral, by simp⟩
  | case6 isFloat c _ _ _ hmark cs _ _ _ hrest ih | case7 isFloat c _ _ _ hmark cs _ _ _ hrest ih =>
    cases h
    obtain ⟨marked, hnumeral, rfl⟩ := ih hrest
    exact ⟨true, .exponent (by simpa using hmark) [_] (by simp) hnumeral, by simp⟩
  | case8 isFloat c _ _ _ hmark cs _ _ _ _ _ hrest ih =>
    cases h
    obtain ⟨marked, hnumeral, rfl⟩ := ih hrest
    exact ⟨true, .exponent (by simpa using hmark) [] (by simp) hnumeral, by simp⟩

section

variable (hc : c.isDigit = true ∨ c = '.' ∧ cs.head?.any Char.isDigit = true)
include hc

theorem decimalChars_pos : ∃ n, (decimalChars false (c :: cs)).2.2 = n + 1 := by
  rcases hc with hc | ⟨rfl, hcs⟩
  · rw [decimalChars.eq_def]
    simp [hc]
  · have hword : ¬cs.head?.any Text.startsWord = true := by
      rcases cs with _ | ⟨d, ds⟩
      · simp
      · intro hstart
        have hdigit : d.isDigit = true := hcs
        rw [isDigit_eq_false_of_startsWord hstart] at hdigit
        cases hdigit
    rw [decimalChars.eq_def]
    simp [hword]

theorem written_of_decimalNumber
    (h : decimalNumber c cs = .ok (t, k)) : Written t (c :: cs.take k) := by
  obtain ⟨n, hn⟩ := decimalChars_pos hc
  rw [decimalNumber] at h
  generalize hchars : decimalChars false (c :: cs) = r at h hn
  obtain ⟨text, float, m⟩ := r
  obtain rfl : m = n + 1 := hn
  obtain ⟨_, hnumeral, rfl⟩ := numeral_of_decimalChars hchars
  rw [take_succ_cons] at hnumeral
  dsimp only at h
  split at h
  · next hfloat =>
    split at h
    · next x hx =>
      cases h
      exact .float (hc.imp_right And.left) (hfloat ▸ hnumeral) hx
    · cases h
  · next hfloat =>
    split at h
    · next m hm =>
      cases h
      obtain rfl : float = false := by simpa using hfloat
      refine .decimal (hc.resolve_right ?_) hnumeral (Checked.toInt_of_narrow? hm)
      rintro ⟨rfl, -⟩
      cases hnumeral with
      | digit hc => cases hc
    · cases h

end

theorem written_of_hexNumber {mark : Char} (hmark : mark = 'x' ∨ mark = 'X')
    (h : hexNumber cs = .ok (t, k)) : Written t ('0' :: (mark :: cs).take k) := by
  unfold hexNumber at h
  dsimp only at h
  split at h
  · cases h
  · next hne =>
    split at h
    · next n hn =>
      cases h
      rw [take_succ_cons, take_length_takeWhile]
      exact .hexadecimal hmark (by simpa using hne) (fun d hd => mem_takeWhile_imp hd)
        (Checked.toInt_of_narrow? hn)
    · cases h

/-- What is read as a token is a lexeme of it. -/
theorem written_of_lexeme (h : lexeme c cs = .ok (t, k)) : Written t (c :: cs.take k) := by
  unfold lexeme at h
  split at h
  · next hc =>
    cases h
    rw [hc]
    exact .newline
  split at h
  · next hc =>
    cases h
    rw [hc]
    exact written_of_comment cs
  split at h
  · next hc => exact written_of_stringBody (by simpa using hc) h
  split at h
  · next hc =>
    unfold number at h
    split at h
    · exact written_of_hexNumber (.inl rfl) h
    · exact written_of_hexNumber (.inr rfl) h
    · exact written_of_decimalNumber (by simpa using hc) h
  split at h
  · next hc =>
    have hword := written_of_word hc cs
    rwa [Except.ok.inj h] at hword
  · exact written_of_symbol h

end Lexer

end Bytewright
