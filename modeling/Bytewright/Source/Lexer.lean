import Bytewright.Number.Checked
import Bytewright.Source.Error
import Bytewright.Text.Blank
import Bytewright.Text.Letter

/-!
# Reading tokens

A text is read one lexeme at a time.  A reader is given the first character of a lexeme and what
follows it, and answers with the token and the number of further characters that belong to it, so
what remains is always shorter.  A fault comes with the number of characters before its place.
-/

namespace Bytewright.Lexer

/-- A fault and the number of characters of the lexeme before its place. -/
abbrev Fault := Nat × FragmentFault

/-- A token and the number of characters of its lexeme after the first. -/
abbrev Lexeme := Token × Nat

/-! ### Blanks -/

/-- The number of further characters that are skipped together with the first one, if it is
skipped at all, where `depth` brackets are open. -/
def skipped? (depth : Nat) : Char → List Char → Option Nat
  | ' ', _ | '\t', _ | '\r', _ => some 0
  | '\n', _ => if 0 < depth then some 0 else none
  | '\\', '\n' :: _ => some 1
  | _, _ => none

/-! ### Comments and words -/

/-- A comment up to the end of the line, its text trimmed. -/
def comment (cs : List Char) : Lexeme :=
  let body := cs.takeWhile (· != '\n')
  (.comment (String.ofList (Text.trim body)), body.length)

/-- A word that starts with `c`: a keyword or a name. -/
def word (c : Char) (cs : List Char) : Lexeme :=
  let rest := cs.takeWhile Text.continuesWord
  let name := String.ofList (c :: rest)
  match Keyword.ofWord? name with
  | some k => (.keyword k, rest.length)
  | none => (.ident name, rest.length)

/-! ### Strings -/

/-- The character that stands after a backslash for another one. -/
def unescape? : Char → Option Char
  | 'n' => some '\n'
  | 't' => some '\t'
  | 'r' => some '\r'
  | '0' => some '\x00'
  | '\\' => some '\\'
  | '\'' => some '\''
  | '"' => some '"'
  | _ => none

/-- The body of a string up to its closing quote, behind `used` further characters that were read
as `body` (latest first). -/
def stringBody (quote : Char) (used : Nat) (body : List Char) :
    List Char → Except Fault Lexeme
  | [] => .error (0, .unclosedString)
  | ['\\'] => .error (used + 2, .unfinishedEscape)
  | '\\' :: c :: cs =>
    match unescape? c with
    | some d => stringBody quote (used + 2) (d :: body) cs
    | none => .error (used + 2, .unknownEscape c)
  | c :: cs =>
    if c = quote then .ok (.str (String.ofList body.reverse), used + 1)
    else if c = '\n' then .error (0, .brokenString)
    else stringBody quote (used + 1) (c :: body) cs

/-! ### Numbers -/

def isHexDigit (c : Char) : Bool :=
  c.isDigit || ('a' ≤ c && c ≤ 'f') || ('A' ≤ c && c ≤ 'F')

def hexValue (c : Char) : Nat :=
  if c.isDigit then c.toNat - '0'.toNat
  else if 'a' ≤ c then c.toNat - 'a'.toNat + 10
  else c.toNat - 'A'.toNat + 10

/-- A hexadecimal number whose digits are at the front of `cs`, behind a zero and a mark. -/
def hexNumber (cs : List Char) : Except Fault Lexeme :=
  let digits := cs.takeWhile isHexDigit
  if digits.isEmpty then .error (0, .noHexDigits)
  else
    match Checked.narrow? (digits.foldl (fun n c => 16 * n + hexValue c) 0 : Nat) with
    | some n => .ok (.integer n, digits.length + 1)
    | none => .error (0, .badHex (String.ofList digits))

/-- The characters of a decimal number: what they spell without underscores, whether they spell a
floating-point number, and how many they are.  A point that is followed by a letter belongs to an
attribute and not to the number. -/
def decimalChars (isFloat : Bool) : List Char → List Char × Bool × Nat
  | [] => ([], isFloat, 0)
  | c :: cs =>
    if c.isDigit then
      let (text, float, n) := decimalChars isFloat cs
      (c :: text, float, n + 1)
    else if c = '_' then
      let (text, float, n) := decimalChars isFloat cs
      (text, float, n + 1)
    else if c = '.' && !isFloat then
      if cs.head?.any Text.startsWord then ([], isFloat, 0)
      else
        let (text, float, n) := decimalChars true cs
        ('.' :: text, float, n + 1)
    else if c = 'e' || c = 'E' then
      match cs with
      | '+' :: cs =>
        let (text, float, n) := decimalChars true cs
        ('e' :: '+' :: text, float, n + 2)
      | '-' :: cs =>
        let (text, float, n) := decimalChars true cs
        ('e' :: '-' :: text, float, n + 2)
      | cs =>
        let (text, float, n) := decimalChars true cs
        ('e' :: text, float, n + 1)
    else ([], isFloat, 0)

/-- A decimal number that starts with `c`. -/
def decimalNumber (c : Char) (cs : List Char) : Except Fault Lexeme :=
  let (text, float, n) := decimalChars false (c :: cs)
  if float then
    match Decimal.read? text with
    | some x => .ok (.float x, n - 1)
    | none => .error (0, .badFloat (String.ofList text))
  else
    match Checked.narrow? (Decimal.numeral text) with
    | some k => .ok (.integer k, n - 1)
    | none => .error (0, .badInteger (String.ofList text))

/-- A number that starts with `c`. -/
def number (c : Char) (cs : List Char) : Except Fault Lexeme :=
  match c, cs with
  | '0', 'x' :: rest | '0', 'X' :: rest => hexNumber rest
  | c, cs => decimalNumber c cs

/-! ### Symbols -/

def single? : Char → Option Symbol
  | '+' => some .plus
  | '-' => some .minus
  | '*' => some .star
  | '/' => some .slash
  | '%' => some .percent
  | '<' => some .lt
  | '>' => some .gt
  | '=' => some .assign
  | '.' => some .dot
  | ',' => some .comma
  | ':' => some .colon
  | ';' => some .semicolon
  | '(' => some .lParen
  | ')' => some .rParen
  | '[' => some .lBracket
  | ']' => some .rBracket
  | '\x7b' => some .lBrace
  | '\x7d' => some .rBrace
  | _ => none

def double? : Char → Char → Option Symbol
  | '=', '=' => some .eqEq
  | '!', '=' => some .notEq
  | '<', '=' => some .ltEq
  | '>', '=' => some .gtEq
  | _, _ => none

/-- A symbol that starts with `c`, the longest one. -/
def symbol (c : Char) (cs : List Char) : Except Fault Lexeme :=
  match cs.head?.bind (double? c) with
  | some s => .ok (.symbol s, 1)
  | none =>
    match single? c with
    | some s => .ok (.symbol s, 0)
    | none => .error (0, .strayCharacter c)

/-! ### Texts -/

/-- The token that starts with `c`. -/
def lexeme (c : Char) (cs : List Char) : Except Fault Lexeme :=
  if c = '\n' then .ok (.newline, 0)
  else if c = '#' then .ok (comment cs)
  else if c = '"' || c = '\'' then stringBody c 0 [] cs
  else if c.isDigit || (c = '.' && cs.head?.any Char.isDigit) then number c cs
  else if Text.startsWord c then .ok (word c cs)
  else symbol c cs

/-- The tokens of a text from `position` on, where `depth` brackets are open.  The last one is the
end of the text. -/
def tokensFrom (position : Position) (depth : Nat) : List Char → Except FragmentError (List Located)
  | [] => .ok [⟨.eof, position⟩]
  | c :: cs =>
    match skipped? depth c cs with
    | some k => tokensFrom (position.past (c :: cs.take k)) depth (cs.drop k)
    | none =>
      match lexeme c cs with
      | .error (k, fault) => .error ⟨fault, position.past ((c :: cs).take k)⟩
      | .ok (token, k) =>
        match tokensFrom (position.past (c :: cs.take k)) (token.depthAfter depth) (cs.drop k) with
        | .ok rest => .ok (⟨token, position⟩ :: rest)
        | .error e => .error e
termination_by cs => cs.length
decreasing_by all_goals simp only [List.length_drop, List.length_cons]; omega

/-- The tokens of a text, comments included. -/
def tokens (text : String) : Except FragmentError (List Located) :=
  tokensFrom .start 0 text.toList

/-- The tokens of a text without its comments. -/
def clean (text : String) : Except FragmentError (List Located) :=
  (tokens text).map (List.filter fun t => !t.token.isComment)

end Bytewright.Lexer
