import Bytewright.Source.Lexer
import Bytewright.Source.Tree

/-!
# Parsing fragments

Statements are separated by line ends or semicolons.  Expressions bind in this order, loosest
first: conditional, `not`, one comparison, sums, products, unary minus, and the suffixes for
attributes, calls and subscripts.

The depth of a tree is bounded.  Every construct that nests (a full expression, `not`, a minus
sign, a further operand of a chain, a further suffix) takes one unit of the room that is left, and
`Level` holds the parsers of the constructs that have just taken one.  The parsers for a given room
are made from those for one unit less, so the recursion is on the room alone; loops over the items
of a list are bounded by the number of tokens.
-/

namespace Bytewright

/-- Tokens that remain to be parsed. -/
structure Cursor where
  rest : List Located
  /-- The place of the token consumed last. -/
  last : Position := .start
deriving Repr

/-- A parser consumes tokens and yields a result, or fails. -/
abbrev Parser (α : Type) := StateT Cursor (Except FragmentError) α

def maxNesting : Nat := 100

namespace Cursor

def token? (c : Cursor) : Option Token := c.rest.head?.map Located.token

/-- The place of the next token, or of the last one when none is left. -/
def position (c : Cursor) : Position := (c.rest.head?.map Located.position).getD c.last

def next (c : Cursor) : Cursor :=
  match c.rest with
  | t :: rest => ⟨rest, t.position⟩
  | [] => c

/-- No token is left but the end of the text. -/
def atEnd (c : Cursor) : Bool :=
  match c.token? with
  | none | some .eof => true
  | _ => false

end Cursor

namespace Parser

/-! ### Steps -/

/-- The next token, which is not consumed. -/
def peek : Parser (Option Token) := fun c => .ok (c.token?, c)

/-- Consumes the next token. -/
def advance : Parser (Option Token) := fun c => .ok (c.token?, c.next)

def fail {α : Type} (fault : FragmentFault) : Parser α := fun c => .error ⟨fault, c.position⟩

/-- Fails because something else was expected than the next token. -/
def failExpecting {α : Type} (wanted : Expectation) : Parser α := fun c =>
  match c.token? with
  | some found => .error ⟨.unexpected wanted found, c.position⟩
  | none => .error ⟨.missing wanted, c.position⟩

def isNext (t : Token) : Parser Bool := fun c => .ok (c.token? == some t, c)

/-- Consumes the given token if it is next. -/
def eat (t : Token) : Parser Bool := fun c =>
  if c.token? == some t then .ok (true, c.next) else .ok (false, c)

/-- Consumes the given token, which has to be next. -/
def expect (t : Token) (context : String) : Parser Unit := do
  if ← eat t then return () else failExpecting (.closing t context)

/-- Runs a loop that is given as many rounds as tokens are left. -/
def rounds {α : Type} (loop : Nat → Parser α) : Parser α := fun c => loop c.rest.length c

/-! ### Operators -/

def compareOp? : Token → Option CompareOp
  | .symbol .lt => some .lt
  | .symbol .ltEq => some .le
  | .symbol .eqEq => some .eq
  | .symbol .notEq => some .ne
  | .symbol .gt => some .gt
  | .symbol .gtEq => some .ge
  | _ => none

/-- The operator of a sum that a token stands for. -/
def sumOp? : Token → Option ArithOp
  | .symbol .plus => some .add
  | .symbol .minus => some .subtract
  | _ => none

/-- The operator of a product that a token stands for. -/
def productOp? : Token → Option ArithOp
  | .symbol .star => some .multiply
  | .symbol .slash => some .divide
  | .symbol .percent => some .modulo
  | _ => none

def startsExpression : Token → Bool
  | .integer _ | .float _ | .str _ | .ident _ => true
  | .keyword .none | .keyword .true | .keyword .false | .keyword .not => true
  | .symbol .minus | .symbol .lParen | .symbol .lBracket | .symbol .lBrace => true
  | _ => false

/-- An expression with a minus sign in front; numbers are negated at once. -/
def negated : Expr → Expr
  | .literal (.int n) => .literal (.int (-n))
  | .literal (.float x) => .literal (.float x.neg)
  | e => .negate e

/-! ### Lists -/

/-- Further items after a comma, as long as one can start. -/
def moreItems (item : Parser Expr) : Nat → Parser (List Expr)
  | 0 => pure []
  | n + 1 => do
    if ← eat (.symbol .comma) then
      if ((← peek).map startsExpression).getD false then
        let e ← item
        return e :: (← moreItems item n)
      else return []
    else return []

/-- One expression, or several with commas as a tuple. -/
def expressionList (item : Parser Expr) : Parser Expr := do
  let first ← item
  if ← isNext (.symbol .comma) then
    return .tuple (first :: (← rounds (moreItems item)))
  else return first

/-- Items up to a closing token, with commas between them and perhaps one at the end. -/
def itemsUntil {α : Type} (close : Token) (item : Parser α) : Nat → Parser (List α)
  | 0 => failExpecting .expression
  | n + 1 => do
    if ← isNext close then return []
    else
      let x ← item
      if ← eat (.symbol .comma) then return x :: (← itemsUntil close item n)
      else return [x]

/-- The items of a display and its closing token. -/
def display {α : Type} (close : Token) (context : String) (item : Parser α) : Parser (List α) := do
  let items ← rounds (itemsUntil close item)
  expect close context
  return items

def pair (item : Parser Expr) : Parser (Expr × Expr) := do
  let key ← item
  expect (.symbol .colon) "after dict key"
  let value ← item
  return (key, value)

/-- Strings that follow, joined to the one before them. -/
def moreStrings (s : String) : Nat → Parser String
  | 0 => pure s
  | n + 1 => do
    match ← peek with
    | some (.str more) => let _ ← advance; moreStrings (s ++ more) n
    | _ => return s

/-! ### Calls -/

structure Arguments where
  args : List Expr := []
  kwargs : List (String × Expr) := []

/-- The next two tokens are a name and an equals sign. -/
def keyword? : Parser (Option String) := fun c =>
  match c.rest with
  | ⟨.ident x, _⟩ :: ⟨.symbol .assign, _⟩ :: _ => .ok (some x, c)
  | _ => .ok (none, c)

/-- One more argument behind those read so far: positional ones come first, and no keyword comes
twice. -/
def argument (item : Parser Expr) (sofar : Arguments) : Parser Arguments := do
  match ← keyword? with
  | some x =>
    let _ ← advance
    if sofar.kwargs.any fun k => k.1 == x then fail (.repeatedKeyword x)
    else
      let _ ← advance
      let value ← item
      return { sofar with kwargs := sofar.kwargs ++ [(x, value)] }
  | none =>
    if sofar.kwargs.isEmpty then
      let e ← item
      return { sofar with args := sofar.args ++ [e] }
    else fail .positionalAfterKeyword

def arguments (item : Parser Expr) (sofar : Arguments) : Nat → Parser Arguments
  | 0 => failExpecting .expression
  | n + 1 => do
    if ← isNext (.symbol .rParen) then return sofar
    else
      let sofar ← argument item sofar
      if ← eat (.symbol .comma) then arguments item sofar n
      else return sofar

/-- The arguments after an opening parenthesis and the closing one. -/
def callArguments (item : Parser Expr) : Parser Arguments := do
  let a ← rounds (arguments item {})
  expect (.symbol .rParen) "to close call"
  if 255 < a.args.length ∨ 255 < a.kwargs.length then fail .tooManyArguments
  else return a

/-! ### Levels -/

/-- Parsers of the constructs that have just taken a unit of room. -/
structure Level where
  full : Parser Expr
  /-- The operand of `not`. -/
  notOperand : Parser Expr
  minusOperand : Parser Expr
  /-- A further summand, after its operator and what stands before it. -/
  summand : ArithOp → Expr → Parser Expr
  /-- A further factor, after its operator and what stands before it. -/
  factor : ArithOp → Expr → Parser Expr
  /-- A suffix to what stands before it; its first token is still to come. -/
  suffix : Expr → Parser Expr

namespace Level

def exhausted : Level where
  full := fail (.tooDeep maxNesting)
  notOperand := fail (.tooDeep maxNesting)
  minusOperand := fail (.tooDeep maxNesting)
  summand _ _ := fail (.tooDeep maxNesting)
  factor _ _ := fail (.tooDeep maxNesting)
  suffix _ := fail (.tooDeep maxNesting)

variable (lower : Level)

/-- A literal, a name, or something in brackets. -/
def atom : Parser Expr := do
  match ← peek with
  | some (.integer n) => let _ ← advance; return .literal (.int n)
  | some (.float x) => let _ ← advance; return .literal (.float x)
  | some (.str s) => let _ ← advance; return .literal (.str (← rounds (moreStrings s)))
  | some (.keyword .none) => let _ ← advance; return .literal .none
  | some (.keyword .true) => let _ ← advance; return .literal (.bool true)
  | some (.keyword .false) => let _ ← advance; return .literal (.bool false)
  | some (.ident x) => let _ ← advance; return .name x
  | some (.symbol .lParen) =>
    let _ ← advance
    if ← eat (.symbol .rParen) then return .tuple []
    else
      let inner ← expressionList lower.full
      expect (.symbol .rParen) "to close parenthesis"
      return inner
  | some (.symbol .lBracket) =>
    let _ ← advance
    return .list (← display (.symbol .rBracket) "to close display" lower.full)
  | some (.symbol .lBrace) =>
    let _ ← advance
    return .dict (← display (.symbol .rBrace) "to close dict" (pair lower.full))
  | _ => failExpecting .expression

def suffixes (e : Expr) : Parser Expr := do
  match ← peek with
  | some (.symbol .dot) | some (.symbol .lParen) | some (.symbol .lBracket) => lower.suffix e
  | _ => return e

/-- One suffix: an attribute, the arguments of a call, or a subscript. -/
def oneSuffix (e : Expr) : Parser Expr := do
  match ← advance with
  | some (.symbol .dot) =>
    match ← advance with
    | some (.ident attr) => return .attribute e attr
    | _ => fail .noAttributeName
  | some (.symbol .lParen) =>
    let a ← callArguments lower.full
    return .call e a.args a.kwargs
  | _ =>
    let key ← expressionList lower.full
    expect (.symbol .rBracket) "to close subscript"
    return .subscript e key

def primary : Parser Expr := do suffixes lower (← atom lower)

def unary : Parser Expr := do
  if ← eat (.symbol .minus) then return negated (← lower.minusOperand)
  else primary lower

def factors (e : Expr) : Parser Expr := do
  match (← peek).bind productOp? with
  | some op => let _ ← advance; lower.factor op e
  | none => return e

def product : Parser Expr := do factors lower (← unary lower)

def summands (e : Expr) : Parser Expr := do
  match (← peek).bind sumOp? with
  | some op => let _ ← advance; lower.summand op e
  | none => return e

def sum : Parser Expr := do summands lower (← product lower)

/-- At most one comparison. -/
def comparison : Parser Expr := do
  let left ← sum lower
  match (← peek).bind compareOp? with
  | some op =>
    let _ ← advance
    let right ← sum lower
    if ((← peek).bind compareOp?).isSome then fail .chainedComparison
    else return .compare op left right
  | none => return left

/-- A comparison with `not` in front. -/
def negation : Parser Expr := do
  if ← eat (.keyword .not) then return .not (← lower.notOperand)
  else comparison lower

def conditional : Parser Expr := do
  let then_ ← negation lower
  if ← eat (.keyword .if_) then
    let cond ← negation lower
    expect (.keyword .else_) "in conditional expression"
    let else_ ← lower.full
    return .ifElse cond then_ else_
  else return then_

def raise : Level where
  full := conditional lower
  notOperand := negation lower
  minusOperand := unary lower
  summand op e := do summands lower (.binary op e (← product lower))
  factor op e := do factors lower (.binary op e (← unary lower))
  suffix e := do suffixes lower (← oneSuffix lower e)

def within : Nat → Level
  | 0 => exhausted
  | room + 1 => raise (within room)

end Level

def expression : Parser Expr := (Level.within maxNesting).full

/-! ### Statements -/

/-- Skips tokens in the set. -/
def skip (p : Token → Bool) : Nat → Parser Unit
  | 0 => pure ()
  | n + 1 => do
    if (← peek).any p then
      let _ ← advance
      skip p n
    else return ()

def isSeparator (t : Token) : Bool := t == .newline || t == .symbol .semicolon

/-- An expression statement or an assignment. -/
def assignment (item : Parser Expr) : Parser Action := do
  let start : Position ← fun c => .ok (c.position, c)
  let e ← expressionList item
  if ← eat (.symbol .assign) then
    match e.target? with
    | some target =>
      let value ← expressionList item
      if ← isNext (.symbol .assign) then fail .chainedAssignment
      else return .assign target value
    | none => fun _ => .error ⟨.notAssignable, start⟩
  else return .expr e

def action (item : Parser Expr) : Parser Action := do
  match ← peek with
  | some (.keyword .pass) => let _ ← advance; return .pass
  | some (.keyword .del) =>
    let _ ← advance
    match ← advance with
    | some (.ident x) => return .delete x
    | _ => fail .deletesNoName
  | some (.keyword .raise) =>
    let _ ← advance
    return .raise (← expressionList item)
  | _ => assignment item

def statement (item : Parser Expr) : Parser Stmt := do
  let start : Position ← fun c => .ok (c.position, c)
  return ⟨← action item, UInt32.ofNat start.line⟩

def atEnd : Parser Bool := fun c => .ok (c.atEnd, c)

/-- The statements up to the end of the text. -/
def statements (item : Parser Expr) : Nat → Parser (List Stmt)
  | 0 => pure []
  | n + 1 => do
    if ← atEnd then return []
    else
      let s ← statement item
      if !(← atEnd) && !(← peek).any isSeparator then failExpecting .endOfStatement
      else
        rounds (skip isSeparator)
        return s :: (← statements item n)

def suite (item : Parser Expr) : Parser (List Stmt) := do
  rounds (skip isSeparator)
  rounds (statements item)

/-- A single expression and nothing after it. -/
def loneExpression (item : Parser Expr) : Parser Expr := do
  rounds (skip (· == .newline))
  if ← atEnd then fail (.missing .expression)
  else
    let e ← expressionList item
    rounds (skip (· == .newline))
    if ← atEnd then return e else failExpecting .endOfExpression

end Parser

/-- The suite that a text spells. -/
def parseStatements (text : String) : Except FragmentError (List Stmt) := do
  let tokens ← Lexer.clean text
  (Parser.suite Parser.expression).run' ⟨tokens, .start⟩

/-- The expression that a text spells. -/
def parseExpression (text : String) : Except FragmentError Expr := do
  let tokens ← Lexer.clean text
  (Parser.loneExpression Parser.expression).run' ⟨tokens, .start⟩

end Bytewright
