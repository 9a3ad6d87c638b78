import Bytewright.Machine.Store

/-!
# The text of values

How values are shown.  As with equality, the text of a value is first written with a given text
for what cells hold; a value that contains no cell within itself passes every cell once at most on
a way down, so the number of cells is depth enough.
-/

namespace Bytewright

def commaSeparated (texts : List String) : String := ", ".intercalate texts

def HookCall.name : HookCall → String
  | loadName => "load_name"
  | loadAttr => "load_attr"
  | callFunction => "call_function"
  | binarySubscr => "binary_subscr"
  | getIter => "get_iter"
  | returnValue => "return_value"

def HookCall.fullName (kind : HookKind) (call : HookCall) : String := kind.name ++ "." ++ call.name

/-- The text of an exception whose arguments have the given texts: a single text argument stands
without quotes, several arguments as a tuple. -/
def exceptionTextBy (kind : String) (args : List Value) (texts : List String) : String :=
  match args, texts with
  | [.str t], _ => kind ++ ": " ++ t
  | _, [] => kind
  | _, [t] => kind ++ ": " ++ t
  | _, many => kind ++ ": " ++ tupleText many

namespace Store

mutual

/-- The text of a value, given the text `inner` of what cells hold. -/
def textBy (s : Store) (inner : Value → String) : Value → String
  | .none => "None"
  | .bool true => "True"
  | .bool false => "False"
  | .int n => Decimal.integer n.toInt
  | .float x => Decimal.write x
  | .str t => Text.ascii t
  | .tuple items => tupleText (textsBy s inner items)
  | .list r => "[" ++ commaSeparated ((s.list r).map inner) ++ "]"
  | .dict r =>
    "\x7b" ++ commaSeparated ((s.dict r).map fun p => inner p.1 ++ ": " ++ inner p.2) ++ "\x7d"
  | .space r =>
    "namespace(" ++
      commaSeparated ((s.scope r).sorted.map fun p => p.1 ++ "=" ++ inner p.2) ++ ")"
  | .code _ unit => "<code " ++ unit.name ++ ">"
  | .function f => "<function " ++ f.code.name ++ ">"
  | .builtin b => "<built-in function " ++ b.name ++ ">"
  | .exceptionType kind => "<type '" ++ kind ++ "'>"
  | .exception ⟨_, kind, args⟩ => exceptionTextBy kind args (textsBy s inner args)
  | .traceback _ entries => "<traceback of " ++ Decimal.digitsOf entries.length ++ " frames>"
  | .iterator _ => "<iterator>"
  | .hook h => "<" ++ h.kind.name ++ ">"
  | .method _ h call => "<method " ++ call.fullName h.kind ++ ">"

def textsBy (s : Store) (inner : Value → String) : List Value → List String
  | [] => []
  | v :: vs => textBy s inner v :: textsBy s inner vs

end

/-- The text of a value that looks into cells to a depth. -/
def textUpTo (s : Store) : Nat → Value → String
  | 0 => s.textBy fun _ => ""
  | n + 1 => s.textBy (s.textUpTo n)

def text (s : Store) (v : Value) : String :=
  s.textUpTo (s.lists.size + s.dicts.size + s.scopes.size + 1) v

def exceptionText (s : Store) (e : Exception) : String := s.text (.exception e)

end Store

end Bytewright
