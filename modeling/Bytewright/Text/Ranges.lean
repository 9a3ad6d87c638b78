/-!
# Sets of characters given by boundaries

A set of code points is stored as the increasing list of the points where membership changes: the
first one is in, the second one out again, and so on.  Long lists are written by the distances
between neighbours.
-/

namespace Bytewright.Text

/-- The boundaries above `n` with the given distances, the first one that from `n`. -/
def boundsAbove (n : Nat) : List Nat → List Nat
  | [] => []
  | d :: ds => (n + d) :: boundsAbove (n + d) ds

/-- The code point `n` lies in the set with boundaries `bounds`: an odd number of them is at or
below it. -/
def inRanges (bounds : List Nat) (n : Nat) : Bool :=
  (bounds.takeWhile (· ≤ n)).length % 2 == 1

end Bytewright.Text
