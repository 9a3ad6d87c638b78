import Mathlib
import Bytewright.Source.Lexer

/-!
# Texts of tokens

There have to be blanks between two texts if the first would go on with the second.  A sign belongs
to no number, and a character that strings show by its number is not read back.
-/

namespace Bytewright

open List

variable {c d : Char} {t : Token}

namespace Token

/-- The character goes on with the token. -/
def goesOnWith : Token → Char → Bool
  | integer _, d => d.isDigit || ['_', '.', 'e', 'E', 'x', 'X'].contains d
  | keyword _, d | ident _, d => Text.continuesWord d
  | symbol .dot, d => d.isDigit
  | symbol .lt, d | symbol .gt, d | symbol .assign, d => d == '='
  | _, _ => false

def Ends (t : Token) (rest : List Char) : Prop := ∀ d ∈ rest.head?, t.goesOnWith d = false

theorem ends_nil (t : Token) : t.Ends [] := by simp [Ends]

theorem ends_cons (h : t.goesOnWith d = false) (rest : List Char) : t.Ends (d :: rest) := by
  rintro _ ⟨⟩
  exact h

theorem goesOnWith_blank (t : Token) : t.goesOnWith ' ' = false := by
  cases t with
  | symbol s => cases s <;> rfl
  | _ => rfl

end Token

namespace Lexer

open Token

/-- The characters are read as the token, unless the next one goes on with it. -/
structure Spelling (t : Token) (c : Char) (cs : List Char) : Prop where
  skipped?_eq : ∀ depth rest, skipped? depth c (cs ++ rest) = none
  lexeme_eq : ∀ rest, t.Ends rest → lexeme c (cs ++ rest) = .ok (t, cs.length)

variable {rest : List Char} {n : Int64}

theorem Spelling.tokensFrom_eq {cs : List Char} (h : Spelling t c cs) (hrest : t.Ends rest)
    (position : Position) (depth : Nat) :
    tokensFrom position depth (c :: (cs ++ rest)) =
      (tokensFrom (position.past (c :: cs)) (t.depthAfter depth) rest).map
        (⟨t, position⟩ :: ·) := by
  rw [tokensFrom, h.skipped?_eq depth rest, h.lexeme_eq rest hrest]
  simp only [take_left, drop_left]
  split
  · next heq => rw [heq]; rfl
  · next heq => rw [heq]; rfl

theorem tokensFrom_blank (position : Position) (depth : Nat) (rest : List Char) :
    tokensFrom position depth (' ' :: rest) = tokensFrom (position.next ' ') depth rest := by
  rw [tokensFrom, skipped?]
  rfl

theorem skipped?_eq_none (h : c ∉ [' ', '\t', '\r', '\n', '\\']) (depth : Nat) (cs : List Char) :
    skipped? depth c cs = none := by
  unfold skipped?
  split
  case h_6 => rfl
  all_goals simp at h

/-! ### Numbers -/

theorem decimalChars_append {ds : List Char} (hds : ∀ d ∈ ds, d.isDigit = true)
    (hrest : (Token.integer n).Ends rest) :
    decimalChars false (ds ++ rest) = (ds, false, ds.length) := by
  induction ds with
  | nil =>
    rcases rest with _ | ⟨d, rest⟩
    · rfl
    · obtain ⟨hdigit, hmark⟩ := Bool.or_eq_false_iff.1 (hrest d rfl)
      simp only [contains_cons, contains_nil, Bool.or_eq_false_iff, beq_eq_false_iff_ne] at hmark
      unfold decimalChars
      simp [hdigit, hmark]
  | cons d ds ih =>
    obtain ⟨hd, hds⟩ := forall_mem_cons.1 hds
    rw [cons_append, decimalChars.eq_def]
    simp [hd, ih hds]

theorem number_eq_decimalNumber {cs : List Char} (h : ∀ d ∈ cs.head?, d ≠ 'x' ∧ d ≠ 'X') :
    number c cs = decimalNumber c cs := by
  unfold number
  split
  · exact absurd rfl (h 'x' rfl).1
  · exact absurd rfl (h 'X' rfl).2
  · rfl

theorem numeral_toDigits (n : Nat) : Decimal.numeral (Nat.toDigits 10 n) = n :=
  Nat.ofDigitChars_toDigits (by decide) (by decide)

theorem spelling_integer (hn : 0 ≤ n.toInt) {cs : List Char}
    (htext : Nat.toDigits 10 n.toInt.natAbs = c :: cs) : Spelling (.integer n) c cs := by
  have hdigits : ∀ d ∈ c :: cs, d.isDigit = true := fun d hd =>
    Nat.isDigit_of_mem_toDigits (by decide) (by decide) (htext ▸ hd)
  have hne {d : Char} (hd : d.isDigit = false) : d ∉ c :: cs := fun hmem => by
    rw [hdigits d hmem] at hd
    cases hd
  have hc {d : Char} (hd : d.isDigit = false) : c ≠ d := by
    rintro rfl
    exact hne hd mem_cons_self
  refine ⟨fun depth rest => skipped?_eq_none ?_ depth _, fun rest hrest => ?_⟩
  · simp [hc (d := ' ') rfl, hc (d := '\t') rfl, hc (d := '\r') rfl, hc (d := '\n') rfl,
      hc (d := '\\') rfl]
  · have hmark : ∀ d ∈ (cs ++ rest).head?, d ≠ 'x' ∧ d ≠ 'X' := by
      intro d hd
      rcases cs with _ | ⟨b, bs⟩
      · have hrest := hrest d hd
        constructor <;> rintro rfl <;> cases hrest
      · cases hd
        constructor <;> rintro rfl
        · exact hne (d := 'x') rfl (by simp)
        · exact hne (d := 'X') rfl (by simp)
    have hvalue : (Decimal.numeral (c :: cs) : Int) = n.toInt := by
      rw [← htext, numeral_toDigits, Int.natAbs_of_nonneg hn]
    have hquote : ¬(c = '"' || c = '\'') := by simp [hc (d := '"') rfl, hc (d := '\'') rfl]
    rw [lexeme, if_neg (hc rfl), if_neg (hc rfl), if_neg hquote,
      if_pos (by simp [hdigits c mem_cons_self]), number_eq_decimalNumber hmark, decimalNumber,
      ← cons_append, decimalChars_append hdigits hrest]
    simp only [Bool.false_eq_true, if_false, hvalue, Checked.narrow?_toInt]
    rfl

end Lexer

namespace Text

/-- The character is shown in strings as itself or by a letter behind a backslash. -/
def IsLegible (c : Char) : Prop :=
  escape '"' c ∈ [[c], ['\\', '"'], ['\\', '\\'], ['\\', 'n'], ['\\', 'r'], ['\\', 't'],
    ['\\', '0']]

instance (c : Char) : Decidable (IsLegible c) := inferInstanceAs (Decidable (_ ∈ _))

theorem IsLegible.cases (h : IsLegible c) :
    (escape '"' c = [c] ∧ c ≠ '"' ∧ c ≠ '\\' ∧ c ≠ '\n') ∨
      ∃ d, escape '"' c = ['\\', d] ∧ Lexer.unescape? d = some c := by
  unfold IsLegible escape at h
  unfold escape
  split at h
  · exact .inr ⟨'0', rfl, rfl⟩
  · exact .inr ⟨'t', rfl, rfl⟩
  · exact .inr ⟨'r', rfl, rfl⟩
  · exact .inr ⟨'n', rfl, rfl⟩
  · exact .inr ⟨'\\', rfl, rfl⟩
  · split at h
    · next hc => exact .inr ⟨'"', by simp [hc], by rw [hc]; rfl⟩
    · split at h
      · simp [byNumber] at h
      · next hquote hhidden => simp_all

end Text

namespace Lexer

open Token

/-! ### Strings -/

theorem stringBody_append {cs : List Char} (h : ∀ c ∈ cs, Text.IsLegible c) (used : Nat)
    (body rest : List Char) :
    stringBody '"' used body (cs.flatMap (Text.escape '"') ++ '"' :: rest) =
      .ok (.str (String.ofList (body.reverse ++ cs)),
        used + (cs.flatMap (Text.escape '"')).length + 1) := by
  induction cs generalizing used body with
  | nil => simp [stringBody]
  | cons c cs ih =>
    obtain ⟨hc, hcs⟩ := forall_mem_cons.1 h
    rcases hc.cases with ⟨hescape, hquote, hslash, hbreak⟩ | ⟨d, hescape, hd⟩
    · simp [hescape, stringBody, hquote, hslash, hbreak, ih hcs]
      omega
    · simp [hescape, stringBody, hd, ih hcs]
      omega

theorem spelling_str {s : String} (h : ∀ c ∈ s.toList, Text.IsLegible c) :
    Spelling (.str s) '"' (s.toList.flatMap (Text.escape '"') ++ ['"']) where
  skipped?_eq _ _ := rfl
  lexeme_eq rest _ := by
    show stringBody '"' 0 [] _ = _
    rw [append_assoc, singleton_append, stringBody_append h]
    simp

/-! ### Words -/

theorem goesOnWith_word (c : Char) (cs : List Char) (d : Char) :
    (word c cs).1.goesOnWith d = Text.continuesWord d := by
  simp only [word]
  split <;> rfl

theorem isDigit_eq_false_of_startsWord (h : Text.startsWord c = true) : c.isDigit = false := by
  rw [← Bool.not_eq_true]
  intro hdigit
  have hlt : c.toNat < 128 := by
    simp only [Char.isDigit, Bool.and_eq_true, decide_eq_true_eq, UInt32.le_iff_toNat_le] at hdigit
    have hle : c.toNat ≤ 57 := hdigit.2
    omega
  simp only [Text.startsWord, Text.isLetter, if_pos hlt, Bool.or_eq_true, beq_iff_eq] at h
  rcases h with h | rfl
  · simp only [Char.isAlpha, Char.isUpper, Char.isLower, Char.isDigit, Bool.or_eq_true,
      Bool.and_eq_true, decide_eq_true_eq, ge_iff_le, UInt32.le_iff_toNat_le] at h hdigit
    have h48 := hdigit.2
    rcases h with h | h
    · exact absurd (h.1.trans h48) (by decide)
    · exact absurd (h.1.trans h48) (by decide)
  · cases hdigit

theorem spelling_word {cs : List Char} (hc : Text.startsWord c = true)
    (hcs : ∀ d ∈ cs, Text.continuesWord d = true) : Spelling (word c cs).1 c cs := by
  have hne {d : Char} (hd : Text.startsWord d = false) : c ≠ d := by
    rintro rfl
    rw [hc] at hd
    cases hd
  refine ⟨fun depth rest => skipped?_eq_none ?_ depth _, fun rest hrest => ?_⟩
  · simp [hne (d := ' ') rfl, hne (d := '\t') rfl, hne (d := '\r') rfl, hne (d := '\n') rfl,
      hne (d := '\\') rfl]
  · have htake : (cs ++ rest).takeWhile Text.continuesWord = cs := by
      rw [takeWhile_append_of_pos hcs]
      rcases rest with _ | ⟨d, rest⟩
      · exact append_nil cs
      · have hd := hrest d rfl
        rw [goesOnWith_word] at hd
        rw [takeWhile_cons_of_neg (by simp [hd]), append_nil]
    have hword : word c (cs ++ rest) = ((word c cs).1, cs.length) := by
      have hself : cs.takeWhile Text.continuesWord = cs := takeWhile_eq_self_iff.2 hcs
      simp only [word, htake, hself]
      split <;> rfl
    rw [lexeme, if_neg (hne rfl), if_neg (hne rfl), if_neg, if_neg, if_pos hc, hword]
    · simp [isDigit_eq_false_of_startsWord hc, hne (d := '.') rfl]
    · simp [hne (d := '"') rfl, hne (d := '\'') rfl]

theorem spelling_keyword (k : Keyword) :
    ∃ c cs, k.word.toList = c :: cs ∧ Spelling (.keyword k) c cs := by
  have hword (c : Char) (cs : List Char) (hc : Text.startsWord c = true)
      (hcs : cs.all Text.continuesWord = true) (ht : (word c cs).1 = .keyword k) :
      Spelling (.keyword k) c cs := ht ▸ spelling_word hc (all_eq_true.1 hcs)
  cases k <;> exact ⟨_, _, rfl, hword _ _ rfl rfl (by cbv)⟩

/-! ### Symbols -/

theorem double?_eq_none (h : (d == '=') = false) : double? c d = none := by
  unfold double?
  split
  case h_5 => rfl
  all_goals cases h

theorem spelling_symbol (s : Symbol) :
    ∃ c cs, s.spelling.toList = c :: cs ∧ Spelling (.symbol s) c cs := by
  cases s
  all_goals
    refine ⟨_, _, rfl, fun _ _ => rfl, fun rest hrest => ?_⟩
    rcases rest with _ | ⟨d, rest⟩
    · rfl
    have hd := hrest d rfl
  case lt | gt | assign =>
    show symbol _ (d :: rest) = _
    simp only [symbol, head?_cons, Option.bind_some, double?_eq_none hd]
    rfl
  case dot =>
    have hd : d.isDigit = false := hd
    simp [lexeme, hd]
    rfl
  all_goals rfl

end Lexer

namespace Token

open Lexer

def IsSpelled (t : Token) : Prop := ∃ c cs, t.text.toList = c :: cs ∧ Spelling t c cs

/-- The token is told by its text. -/
def Legible : Token → Prop
  | integer n => 0 ≤ n.toInt
  | str s => ∀ c ∈ s.toList, Text.IsLegible c
  | keyword _ | symbol _ => True
  | ident x => x.toList.head?.any Text.startsWord = true ∧
      x.toList.tail.all Text.continuesWord = true ∧ Keyword.ofWord? x = none
  | _ => False

instance : DecidablePred Legible
  | integer n => inferInstanceAs (Decidable (0 ≤ n.toInt))
  | str s => List.decidableBAll Text.IsLegible s.toList
  | keyword _ | symbol _ => .isTrue trivial
  | ident x => inferInstanceAs (Decidable (x.toList.head?.any Text.startsWord = true ∧
      x.toList.tail.all Text.continuesWord = true ∧ Keyword.ofWord? x = none))
  | float _ | comment _ | newline | eof => .isFalse id

theorem Legible.isSpelled (h : t.Legible) : t.IsSpelled := by
  cases t with
  | integer n =>
    have htext : (integer n).text.toList = Nat.toDigits 10 n.toInt.natAbs := by
      rw [text, Decimal.integer, if_neg (not_lt.2 h), Decimal.digitsOf, String.toList_ofList]
    obtain ⟨c, cs, hcs⟩ : ∃ c cs, Nat.toDigits 10 n.toInt.natAbs = c :: cs :=
      exists_cons_of_ne_nil Nat.toDigits_ne_nil
    exact ⟨c, cs, htext.trans hcs, spelling_integer h hcs⟩
  | str s => exact ⟨_, _, String.toList_ofList, spelling_str h⟩
  | keyword k => exact spelling_keyword k
  | symbol s => exact spelling_symbol s
  | ident x =>
    obtain ⟨hstart, hcontinue, hkeyword⟩ := h
    rcases hx : x.toList with _ | ⟨c, cs⟩
    · simp [hx] at hstart
    · rw [hx] at hstart hcontinue
      have hcs : ∀ d ∈ cs, Text.continuesWord d = true := all_eq_true.1 hcontinue
      have hname : String.ofList (c :: cs) = x := by rw [← hx, String.ofList_toList]
      have hword : (word c cs).1 = .ident x := by
        simp only [word, takeWhile_eq_self_iff.2 hcs, hname, hkeyword]
      exact ⟨c, cs, hx, hword ▸ spelling_word (by simpa using hstart) hcs⟩
  | _ => exact h.elim

theorem Legible.isComment_eq_false (h : t.Legible) : t.isComment = false := by
  cases t with
  | comment => exact h.elim
  | _ => rfl

def spaced (ts : List Token) : String := " ".intercalate (ts.map text)

end Token

namespace Lexer

open Token

/-! ### Texts -/

/-- The text is made of the texts of the tokens and of blanks. -/
inductive Renders : List Token → List Char → Prop
  | nil : Renders [] []
  | blank {ts : List Token} {cs : List Char} (h : Renders ts cs) : Renders ts (' ' :: cs)
  | token {t : Token} {ts : List Token} {cs : List Char} (ht : t.Legible) (hcs : t.Ends cs)
    (h : Renders ts cs) : Renders (t :: ts) (t.text.toList ++ cs)

theorem Renders.symbol {s : Symbol} {ts : List Token} {cs : List Char}
    (hs : s.spelling.toList = [c]) (hcs : ∀ d, (Token.symbol s).goesOnWith d = false)
    (h : Renders ts cs) : Renders (.symbol s :: ts) (c :: cs) := by
  have htoken := Renders.token (t := .symbol s) trivial (fun d _ => hcs d) h
  rwa [Token.text, hs] at htoken

theorem renders_spaced {ts : List Token} (h : ∀ t ∈ ts, t.Legible) :
    Renders ts (spaced ts).toList := by
  induction ts with
  | nil => exact .nil
  | cons t ts ih =>
    obtain ⟨ht, hts⟩ := forall_mem_cons.1 h
    cases ts with
    | nil => simpa [spaced] using Renders.token ht t.ends_nil .nil
    | cons u us =>
      have hblank := Renders.token ht (ends_cons t.goesOnWith_blank _) (ih hts).blank
      simpa [spaced, String.toList_intercalate] using hblank

variable {ts : List Token} {cs : List Char}

theorem Renders.exists_tokensFrom (h : Renders ts cs) (position : Position) (depth : Nat) :
    ∃ located, tokensFrom position depth cs = .ok located ∧
      located.map Located.token = ts ++ [.eof] := by
  induction h generalizing position depth with
  | nil => exact ⟨[⟨.eof, position⟩], by rw [tokensFrom], rfl⟩
  | blank h ih =>
    rw [tokensFrom_blank]
    exact ih _ depth
  | @token t ts cs ht hcs h ih =>
    obtain ⟨c, ds, htext, hspelling⟩ := ht.isSpelled
    obtain ⟨located, hlocated, htokens⟩ := ih (position.past (c :: ds)) (t.depthAfter depth)
    refine ⟨⟨t, position⟩ :: located, ?_, by rw [map_cons, htokens]; rfl⟩
    rw [htext, cons_append, hspelling.tokensFrom_eq hcs, hlocated]
    rfl

theorem Renders.legible (h : Renders ts cs) : ∀ t ∈ ts, t.Legible := by
  induction h with
  | nil => simp
  | blank h ih => exact ih
  | token ht hcs h ih => exact forall_mem_cons.2 ⟨ht, ih⟩

theorem Renders.exists_clean {text : String} (h : Renders ts text.toList) :
    ∃ located, clean text = .ok located ∧ located.map Located.token = ts ++ [.eof] := by
  obtain ⟨located, hlocated, htokens⟩ := h.exists_tokensFrom .start 0
  refine ⟨located, ?_, htokens⟩
  rw [clean, tokens, hlocated]
  refine congrArg Except.ok (filter_eq_self.2 fun t ht => ?_)
  have hmem : t.token ∈ ts ++ [.eof] := htokens ▸ mem_map_of_mem ht
  rcases mem_append.1 hmem with hmem | hmem
  · rw [(h.legible _ hmem).isComment_eq_false]
    rfl
  · rw [mem_singleton.1 hmem]
    rfl

end Lexer

/-- The tokens of a text in which the texts of tokens stand with a blank between two of them. -/
theorem spaced_texts_read_back (ts : List Token) (h : ∀ t ∈ ts, t.Legible) :
    ∃ located, Lexer.tokens (Token.spaced ts) = .ok located ∧
      located.map Located.token = ts ++ [.eof] :=
  (Lexer.renders_spaced h).exists_tokensFrom .start 0

def mixedTokens : List Token :=
  [.ident "x2e", .symbol .dot, .integer 0, .symbol .lParen, .symbol .assign, .symbol .eqEq,
    .symbol .lt, .keyword .not, .ident "_é", .str "it's \"\\\n\x00é", .integer 9223372036854775807,
    .symbol .dot, .ident "e5", .str ""]

theorem mixedTokens_read_back :
    (∀ t ∈ mixedTokens, t.Legible) ∧
      Token.spaced mixedTokens =
        "x2e . 0 ( = == < not _é \"it's \\\"\\\\\\n\\0é\" 9223372036854775807 . e5 \"\"" ∧
      ∃ located, Lexer.tokens (Token.spaced mixedTokens) = .ok located ∧
        located.map Located.token = mixedTokens ++ [.eof] := by
  have hlegible : ∀ t ∈ mixedTokens, t.Legible := by decide +kernel
  exact ⟨hlegible, by decide +kernel, spaced_texts_read_back mixedTokens hlegible⟩

end Bytewright
