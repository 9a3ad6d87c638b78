/-!
# Operators

The arithmetic and comparison operators of fragments.  In an instruction an operator is its
position in the list of all operators of its kind.
-/

namespace Bytewright

inductive ArithOp where
  | add | subtract | multiply | divide | modulo
deriving DecidableEq, Repr

namespace ArithOp

/-- All operators, in the order of their numbers. -/
def all : List ArithOp := [add, subtract, multiply, divide, modulo]

def index (op : ArithOp) : Nat := all.idxOf op

def ofIndex? (n : Nat) : Option ArithOp := all[n]?

def symbol : ArithOp → String
  | add => "+"
  | subtract => "-"
  | multiply => "*"
  | divide => "/"
  | modulo => "%"

def title : ArithOp → String
  | add => "Add"
  | subtract => "Subtract"
  | multiply => "Multiply"
  | divide => "Divide"
  | modulo => "Modulo"

end ArithOp

inductive CompareOp where
  | lt | le | eq | ne | gt | ge
deriving DecidableEq, Repr

namespace CompareOp

/-- All operators, in the order of their numbers. -/
def all : List CompareOp := [lt, le, eq, ne, gt, ge]

def index (op : CompareOp) : Nat := all.idxOf op

def ofIndex? (n : Nat) : Option CompareOp := all[n]?

def symbol : CompareOp → String
  | lt => "<"
  | le => "<="
  | eq => "=="
  | ne => "!="
  | gt => ">"
  | ge => ">="

def title : CompareOp → String
  | lt => "Lt"
  | le => "Le"
  | eq => "Eq"
  | ne => "Ne"
  | gt => "Gt"
  | ge => "Ge"

/-- The operator holds of two things in a given order. -/
def holds : CompareOp → Ordering → Bool
  | lt, o => o == .lt
  | le, o => o != .gt
  | eq, o => o == .eq
  | ne, o => o != .eq
  | gt, o => o == .gt
  | ge, o => o != .lt

end CompareOp

end Bytewright
