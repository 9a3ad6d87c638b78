import Bytewright.Source.Token

/-!
# What can be wrong with a fragment

A fragment that cannot be compiled is answered with one fault and its place.  The wording of every
fault is in one function.
-/

namespace Bytewright

/-- How a fragment is compiled. -/
inductive Mode where
  /-- A suite of statements; its code ends by returning nothing in particular. -/
  | statements
  /-- One expression; its code ends by returning its value. -/
  | expression
deriving DecidableEq, Repr

def Mode.text : Mode → String
  | .statements => "statement"
  | .expression => "expression"

/-- What was expected where another token was found. -/
inductive Expectation where
  | expression
  | endOfExpression
  | endOfStatement
  | closing (token : Token) (context : String)
deriving DecidableEq, Repr

def Expectation.text : Expectation → String
  | .expression => "expected an expression"
  | .endOfExpression => "expected end of expression"
  | .endOfStatement => "expected end of statement"
  | .closing token context => "expected '" ++ token.text ++ "' " ++ context

/-- What is wrong with a fragment. -/
inductive FragmentFault where
  | unknownEscape (c : Char)
  | unfinishedEscape
  | brokenString
  | unclosedString
  | noHexDigits
  | badHex (digits : String)
  | badFloat (digits : String)
  | badInteger (digits : String)
  | strayCharacter (c : Char)
  | unexpected (wanted : Expectation) (found : Token)
  | missing (wanted : Expectation)
  | tooDeep (limit : Nat)
  | chainedComparison
  | chainedAssignment
  | notAssignable
  | deletesNoName
  | noAttributeName
  | repeatedKeyword (name : String)
  | positionalAfterKeyword
  | tooManyArguments
  | suiteAsExpression
  | expressionAsSuite
  /-- The code of the fragment was refused. -/
  | refused (reason : String)
  /-- A reason that another compiler gives. -/
  | other (reason : String)
deriving DecidableEq, Repr

def FragmentFault.message : FragmentFault → String
  | .unknownEscape c => "unknown escape sequence: \\" ++ c.toString
  | .unfinishedEscape => "unexpected EOF in escape sequence"
  | .brokenString => "unterminated string (newline before closing quote)"
  | .unclosedString => "unterminated string literal"
  | .noHexDigits => "expected hex digits after 0x"
  | .badHex digits => "invalid hex number: 0x" ++ digits
  | .badFloat digits => "invalid float: " ++ digits
  | .badInteger digits => "invalid integer: " ++ digits
  | .strayCharacter c => "unexpected character: " ++ Text.quotedChar c
  | .unexpected wanted found => wanted.text ++ ", found " ++ found.text
  | .missing wanted => wanted.text
  | .tooDeep limit =>
    "expression nested too deeply (more than " ++ Decimal.digitsOf limit ++ " levels)"
  | .chainedComparison => "chained comparisons are not supported"
  | .chainedAssignment => "chained assignment is not supported"
  | .notAssignable => "cannot assign to expression"
  | .deletesNoName => "'del' takes a single name"
  | .noAttributeName => "expected attribute name after '.'"
  | .repeatedKeyword name => "keyword argument repeated: " ++ name
  | .positionalAfterKeyword => "positional argument follows keyword argument"
  | .tooManyArguments => "more than 255 arguments"
  | .suiteAsExpression => "a statement suite cannot be compiled as an expression"
  | .expressionAsSuite => "an expression tree cannot be compiled as a statement suite"
  | .refused reason => reason
  | .other reason => reason

structure FragmentError where
  fault : FragmentFault
  position : Position
deriving DecidableEq, Repr

/-- The wording of an error, its place in front. -/
def FragmentError.message (e : FragmentError) : String :=
  Decimal.digitsOf e.position.line ++ ":" ++ Decimal.digitsOf e.position.col ++ ": "
    ++ e.fault.message

end Bytewright
