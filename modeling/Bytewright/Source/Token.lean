import Bytewright.Number.Decimal
import Bytewright.Text.Quoted

/-!
# Tokens of fragments

A fragment is read as tokens, each with the place of its first character.
-/

namespace Bytewright

/-- A place in a text: line and column, counted from one. -/
structure Position where
  line : Nat
  col : Nat
deriving DecidableEq, Repr

namespace Position

def start : Position := ⟨1, 1⟩

def next (p : Position) (c : Char) : Position :=
  if c = '\n' then ⟨p.line + 1, 1⟩ else ⟨p.line, p.col + 1⟩

def past (p : Position) (cs : List Char) : Position := cs.foldl next p

end Position

/-- Words with a fixed meaning. -/
inductive Keyword where
  | none | true | false
  | not | if_ | else_
  | del | raise | pass
deriving DecidableEq, Repr

namespace Keyword

def all : List Keyword := [none, true, false, not, if_, else_, del, raise, pass]

def word : Keyword → String
  | none => "None"
  | true => "True"
  | false => "False"
  | not => "not"
  | if_ => "if"
  | else_ => "else"
  | del => "del"
  | raise => "raise"
  | pass => "pass"

/-- The keyword that a word is, if it is one. -/
def ofWord? (w : String) : Option Keyword := all.find? fun k => k.word == w

end Keyword

/-- Operators and punctuation. -/
inductive Symbol where
  | plus | minus | star | slash | percent
  | eqEq | notEq | lt | gt | ltEq | gtEq
  | assign | dot | comma | colon | semicolon
  | lParen | rParen | lBracket | rBracket | lBrace | rBrace
deriving DecidableEq, Repr

def Symbol.spelling : Symbol → String
  | plus => "+"
  | minus => "-"
  | star => "*"
  | slash => "/"
  | percent => "%"
  | eqEq => "=="
  | notEq => "!="
  | lt => "<"
  | gt => ">"
  | ltEq => "<="
  | gtEq => ">="
  | assign => "="
  | dot => "."
  | comma => ","
  | colon => ":"
  | semicolon => ";"
  | lParen => "("
  | rParen => ")"
  | lBracket => "["
  | rBracket => "]"
  | lBrace => "\x7b"
  | rBrace => "\x7d"

/-- A token. -/
inductive Token where
  | integer (n : Int64)
  | float (x : Binary64)
  | str (s : String)
  | keyword (k : Keyword)
  | symbol (s : Symbol)
  | ident (name : String)
  | comment (text : String)
  | newline
  | eof
deriving DecidableEq, Repr

namespace Token

def text : Token → String
  | integer n => Decimal.integer n.toInt
  | float x => Decimal.write x
  | str s => Text.quoted s
  | keyword k => k.word
  | symbol s => s.spelling
  | ident name => name
  | comment text => "# " ++ text
  | newline => "newline"
  | eof => "end of input"

def kind : Token → String
  | integer _ => "Integer"
  | float _ => "Float"
  | str _ => "String"
  | keyword .none => "None"
  | keyword .true => "True"
  | keyword .false => "False"
  | keyword .not => "Not"
  | keyword .if_ => "If"
  | keyword .else_ => "Else"
  | keyword .del => "Del"
  | keyword .raise => "Raise"
  | keyword .pass => "Pass"
  | symbol .plus => "Plus"
  | symbol .minus => "Minus"
  | symbol .star => "Star"
  | symbol .slash => "Slash"
  | symbol .percent => "Percent"
  | symbol .eqEq => "EqEq"
  | symbol .notEq => "NotEq"
  | symbol .lt => "Lt"
  | symbol .gt => "Gt"
  | symbol .ltEq => "LtEq"
  | symbol .gtEq => "GtEq"
  | symbol .assign => "Assign"
  | symbol .dot => "Dot"
  | symbol .comma => "Comma"
  | symbol .colon => "Colon"
  | symbol .semicolon => "Semicolon"
  | symbol .lParen => "LParen"
  | symbol .rParen => "RParen"
  | symbol .lBracket => "LBracket"
  | symbol .rBracket => "RBracket"
  | symbol .lBrace => "LBrace"
  | symbol .rBrace => "RBrace"
  | ident _ => "Ident"
  | comment _ => "Comment"
  | newline => "Newline"
  | eof => "Eof"

def isComment : Token → Bool
  | comment _ => true
  | _ => false

/-- The number of open brackets after the token, if `depth` are open before it.  A closing bracket
without an opening one closes nothing. -/
def depthAfter (depth : Nat) : Token → Nat
  | symbol .lParen | symbol .lBracket | symbol .lBrace => depth + 1
  | symbol .rParen | symbol .rBracket | symbol .rBrace => depth - 1
  | _ => depth

end Token

/-- A token and the place of its first character. -/
structure Located where
  token : Token
  position : Position
deriving DecidableEq, Repr

end Bytewright
