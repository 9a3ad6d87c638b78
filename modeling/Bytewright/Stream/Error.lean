import Bytewright.Source.Error
import Bytewright.Stream.Dump

/-!
# What can be wrong with a stream

The faults of taking a code unit apart and of putting a stream together, each with its wording.
-/

namespace Bytewright

/-! ### Code units that cannot be taken apart -/

/-- What is wrong with an instruction of a code unit. -/
inductive DecodeFault where
  | jumpOutOfRange (target : Nat)
  | constOutOfRange (arg : UInt32)
  | nameOutOfRange (pool : NamePool) (arg : UInt32)
  | unknownOperator (arg : UInt32)
  | unknownComparison (arg : UInt32)
  | unresolvedJump
deriving DecidableEq, Repr

/-- What an entry of a pool is called in messages. -/
def NamePool.entry : NamePool → String
  | .locals => "varname"
  | .names => "name"
  | .free => "freevar"

def DecodeFault.message : DecodeFault → String
  | .jumpOutOfRange target => "jump target " ++ Decimal.digitsOf target ++ " is out of range"
  | .constOutOfRange arg => "const index " ++ Decimal.digitsOf arg.toNat ++ " out of range"
  | .nameOutOfRange pool arg =>
    pool.entry ++ " index " ++ Decimal.digitsOf arg.toNat ++ " out of range"
  | .unknownOperator arg => "unknown operator " ++ Decimal.digitsOf arg.toNat
  | .unknownComparison arg => "unknown comparison " ++ Decimal.digitsOf arg.toNat
  | .unresolvedJump => "unresolved jump target"

/-- A fault and the instruction it was found at. -/
structure DecodeError where
  index : Nat
  fault : DecodeFault
deriving DecidableEq, Repr

def DecodeError.message (e : DecodeError) : String :=
  "decode error at " ++ Decimal.digitsOf e.index ++ ": " ++ e.fault.message

/-! ### Streams that cannot be put together -/

/-- What is wrong with a label. -/
inductive LabelProblem where
  | neverMarked
  | neverReferenced
  | markedTwice
deriving DecidableEq, Repr

def LabelProblem.message : LabelProblem → String
  | .neverMarked => "is referenced but never marked"
  | .neverReferenced => "is marked but never referenced"
  | .markedTwice => "is marked more than once"

/-- What the code of a fragment lacks for being spliced without its frame. -/
inductive FrameFault where
  | noLineMarker
  | noReturnNone
  | noReturn
  | undecodable (error : DecodeError)
deriving DecidableEq, Repr

def FrameFault.message : FrameFault → String
  | .noLineMarker => "expected a leading line marker"
  | .noReturnNone => "expected a trailing `return None`"
  | .noReturn => "expected a trailing return"
  | .undecodable error => error.message

/-- The end of a stream that cannot be turned from a load into a store. -/
inductive Tail where
  /-- The stream does not end in a return. -/
  | noReturn
  /-- The stream returns what this operation leaves. -/
  | op (last : Op)

def Tail.text : Tail → String
  | .noReturn => "a stream without a final return"
  | .op last => Dump.op last

/-- Why a code unit could not be made. -/
inductive AssembleError where
  /-- A fragment did not compile in its mode. -/
  | fragmentSyntax (fileName : String) (mode : Mode) (error : FragmentError)
  /-- A compiled fragment lacks the frame that was to be removed. -/
  | malformedFragment (mode : Mode) (fault : FrameFault)
  | unresolvedLabel (label : Label) (problem : LabelProblem)
  /-- A forward jump leads backward. -/
  | invalidJump (label : Label) (index : Nat)
  | duplicateParameter (name : String)
  /-- An expression does not end in a load that has a matching store. -/
  | notInvertible (tail : Tail)
  /-- A nested code unit could not be taken apart. -/
  | decode (error : DecodeError)
  | stackImbalance (error : Depth.Error)

/-- The wording of an error after its common opening. -/
def AssembleError.reason : AssembleError → String
  | .fragmentSyntax fileName mode error =>
    mode.text ++ " fragment in '" ++ fileName ++ "': " ++ error.message
  | .malformedFragment mode fault =>
    "malformed " ++ mode.text ++ " fragment: " ++ fault.message
      ++ "\n  hint: pass trim = false to splice the fragment verbatim"
  | .unresolvedLabel label problem => "label " ++ label.text ++ " " ++ problem.message
  | .invalidJump label index =>
    "forward jump at " ++ Decimal.digitsOf index ++ " targets label " ++ label.text ++ " behind it"
      ++ "\n  hint: use jump_absolute for backward jumps"
  | .duplicateParameter name => "duplicate parameter '" ++ name ++ "'"
  | .notInvertible tail => "can't invert code ending in " ++ tail.text
  | .decode error => error.message
  | .stackImbalance error => error.message

def AssembleError.message (e : AssembleError) : String := "assemble error: " ++ e.reason

end Bytewright
