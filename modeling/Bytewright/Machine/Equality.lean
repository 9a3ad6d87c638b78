import Bytewright.Machine.Store

/-!
# Equality of values

Numbers are equal when they have the same value, whatever their types.  Texts, tuples, lists and
maps are equal when their contents are; the order of the pairs of a map does not matter.  All else
is compared by identity, and code by identity or contents.

Equality first looks at values with a given equality for what cells hold, and then ties the knot
to a depth.  A chain of cells compared with cells that is longer than there are pairs of cells
meets some pair again, so it would never end; the depth `Store.pairsOfCells` is therefore enough
wherever there is an answer.

A comparison need not come to an answer: it goes on for ever where cells contain themselves, and it
breaks down where it meets a map that is held for a change.  What follows from this is a matter of
the order in which contents are compared, and of where a difference ends the comparison.
-/

namespace Bytewright

/-- Numbers and truth values with the same value. -/
def Value.sameNumber (a b : Value) : Bool :=
  match a.asInt?, b.asInt? with
  | some x, some y => x == y
  | _, _ =>
    match a.asFloat?, b.asFloat? with
    | some x, some y => x.equals y
    | _, _ => false

/-- Lists of the same length with equal items. -/
def equalLists (inner : Value → Value → Bool) : List Value → List Value → Bool
  | [], [] => true
  | a :: as, b :: bs => inner a b && equalLists inner as bs
  | _, _ => false

/-- Maps of the same size such that every pair of one is found in the other. -/
def equalMaps (inner : Value → Value → Bool) (as bs : List (Value × Value)) : Bool :=
  as.length == bs.length &&
    as.all fun p => bs.any fun q => inner p.1 q.1 && inner p.2 q.2

namespace Store

mutual

/-- Equality of values, given an equality `inner` of what cells hold. -/
def equalsBy (s : Store) (inner : Value → Value → Bool) : Value → Value → Bool
  | .none, b => match b with | .none => true | _ => false
  | .bool x, b => (Value.bool x).sameNumber b
  | .int x, b => (Value.int x).sameNumber b
  | .float x, b => (Value.float x).sameNumber b
  | .str x, b => match b with | .str y => x == y | _ => false
  | .tuple xs, b => match b with | .tuple ys => equalAllBy s inner xs ys | _ => false
  | .list x, b =>
    match b with
    | .list y => x == y || equalLists inner (s.list x) (s.list y)
    | _ => false
  | .dict x, b => match b with | .dict y => equalMaps inner (s.dict x) (s.dict y) | _ => false
  | .space x, b => match b with | .space y => x == y | _ => false
  | .code i x, b => match b with | .code j y => i == j || x.agrees y | _ => false
  | .function f, b => match b with | .function g => f.id == g.id | _ => false
  | .builtin x, b => match b with | .builtin y => x == y | _ => false
  | .exceptionType x, b => match b with | .exceptionType y => x == y | _ => false
  | .exception x, b => match b with | .exception y => x.id == y.id | _ => false
  | .traceback i _, b => match b with | .traceback j _ => i == j | _ => false
  | .iterator x, b => match b with | .iterator y => x == y | _ => false
  | .hook x, b => match b with | .hook y => x.id == y.id | _ => false
  | .method i _ _, b => match b with | .method j _ _ => i == j | _ => false

/-- Tuples of the same length with equal items. -/
def equalAllBy (s : Store) (inner : Value → Value → Bool) : List Value → List Value → Bool
  | [], [] => true
  | a :: as, b :: bs => equalsBy s inner a b && equalAllBy s inner as bs
  | _, _ => false

end

/-- Equality that looks into cells to a depth. -/
def equalsUpTo (s : Store) : Nat → Value → Value → Bool
  | 0 => s.equalsBy fun _ _ => false
  | n + 1 => s.equalsBy (s.equalsUpTo n)

/-- The number of pairs of cells that can be compared with each other. -/
def pairsOfCells (s : Store) : Nat := s.lists.size * s.lists.size + s.dicts.size * s.dicts.size

def equals (s : Store) (a b : Value) : Bool := s.equalsUpTo (s.pairsOfCells + 1) a b

end Store

/-! ### Comparisons that come to an answer -/

/-- Items are compared up to the first difference. -/
def comparedItems (same : Value → Value → Bool) : List Value → List Value → List (Value × Value)
  | a :: as, b :: bs => (a, b) :: if same a b then comparedItems same as bs else []
  | _, _ => []

/-- A pair is looked for among pairs up to the first that it equals. -/
def comparedPair (same : Value → Value → Bool) (p : Value × Value) :
    List (Value × Value) → List (Value × Value)
  | [] => []
  | q :: qs =>
    if same p.1 q.1 then
      (p.1, q.1) :: (p.2, q.2) :: if same p.2 q.2 then [] else comparedPair same p qs
    else (p.1, q.1) :: comparedPair same p qs

/-- Pairs are looked for one after the other, up to the first that is not found. -/
def comparedMaps (same : Value → Value → Bool) (bs : List (Value × Value)) :
    List (Value × Value) → List (Value × Value)
  | [] => []
  | p :: as =>
    comparedPair same p bs ++
      if bs.any fun q => same p.1 q.1 && same p.2 q.2 then comparedMaps same bs as else []

namespace Store

/-- What cells hold, as far as it is compared when the cells are. -/
def compared (s : Store) : Value → Value → List (Value × Value)
  | .list x, .list y =>
    if x == y || (s.list x).length != (s.list y).length then []
    else comparedItems s.equals (s.list x) (s.list y)
  | .dict x, .dict y =>
    if (s.dict x).length != (s.dict y).length then []
    else comparedMaps s.equals (s.dict y) (s.dict x)
  | _, _ => []

/-- Maps are compared, and one of them is held. -/
def meets (held : Option DictRef) : Value → Value → Bool
  | .dict x, .dict y => held == some x || held == some y
  | _, _ => false

mutual

/-- The comparison of two values comes to an answer, if `settled` says which comparisons of what
cells hold do.  The map `held` must not be looked into. -/
def settlesBy (s : Store) (held : Option DictRef) (settled : Value → Value → Bool) :
    Value → Value → Bool
  | .tuple xs, b =>
    match b with
    | .tuple ys => xs.length != ys.length || settlesAllBy s held settled xs ys
    | _ => true
  | a, b => !meets held a b && (s.compared a b).all fun p => settled p.1 p.2

/-- The items of tuples are compared up to the first difference. -/
def settlesAllBy (s : Store) (held : Option DictRef) (settled : Value → Value → Bool) :
    List Value → List Value → Bool
  | a :: as, b :: bs =>
    settlesBy s held settled a b && (!s.equals a b || settlesAllBy s held settled as bs)
  | _, _ => true

end

/-- The comparison comes to an answer without looking into cells beyond a depth. -/
def settlesUpTo (s : Store) (held : Option DictRef) : Nat → Value → Value → Bool
  | 0 => s.settlesBy held fun _ _ => false
  | n + 1 => s.settlesBy held (s.settlesUpTo held n)

/-- The comparison of two values comes to an answer, while a map is held for a change. -/
def settles (s : Store) (held : Option DictRef) (a b : Value) : Bool :=
  s.settlesUpTo held (s.pairsOfCells + 1) a b

end Store

end Bytewright
