/-!
# Flags of a code unit

A set of properties packed into the bits of a word.
-/

namespace Bytewright

structure Flags where
  /-- The bits themselves; those without a meaning are kept. -/
  bits : UInt32
deriving DecidableEq, Repr

namespace Flags

def none : Flags := ⟨0⟩

/-- Locals live in fast slots. -/
def optimized : Flags := ⟨0x01⟩

/-- Each call gets a fresh name scope. -/
def newLocals : Flags := ⟨0x02⟩

/-- A parameter collects surplus positional arguments. -/
def varArgs : Flags := ⟨0x04⟩

/-- The last parameter collects surplus keyword arguments. -/
def varKeywords : Flags := ⟨0x08⟩

/-- There are no free variables. -/
def noFree : Flags := ⟨0x40⟩

/-- All flags of `b` are set in `a`. -/
def contains (a b : Flags) : Bool := a.bits &&& b.bits == b.bits

def union (a b : Flags) : Flags := ⟨a.bits ||| b.bits⟩

/-- The flags of `a`, and `b` if the condition holds. -/
def addIf (a : Flags) (condition : Bool) (b : Flags) : Flags :=
  if condition then a.union b else a

def named : List (Flags × String) :=
  [(optimized, "OPTIMIZED"), (newLocals, "NEWLOCALS"), (varArgs, "VARARGS"),
   (varKeywords, "VARKEYWORDS"), (noFree, "NOFREE")]

/-- The names of the flags that are set, or `0` if none of them is. -/
def text (a : Flags) : String :=
  match (named.filter fun f => a.contains f.1).map Prod.snd with
  | [] => "0"
  | names => " | ".intercalate names

end Flags

end Bytewright
