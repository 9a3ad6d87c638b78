import Bytewright.Machine.Value

/-!
# The store

The store holds the contents of all cells that values refer to, and the next identity.  Cells are
never given up: a reference, once made, stays good.
-/

namespace Bytewright

/-! ### Name spaces -/

abbrev Bindings := List (String × Value)

namespace Bindings

def get? (b : Bindings) (x : String) : Option Value := b.lookup x

/-- The name space with a name bound to a value. -/
def insert (x : String) (v : Value) : Bindings → Bindings
  | [] => [(x, v)]
  | (y, w) :: rest => if y = x then (x, v) :: rest else (y, w) :: insert x v rest

def erase (x : String) (b : Bindings) : Bindings := b.filter fun p => p.1 != x

/-- The name space that several pairs build up in turn. -/
def ofList (pairs : List (String × Value)) : Bindings :=
  pairs.foldl (fun b p => b.insert p.1 p.2) []

/-- The bindings in the order of their names. -/
def sorted (b : Bindings) : Bindings := b.mergeSort fun p q => p.1 ≤ q.1

end Bindings

/-! ### Cells -/

/-- The contents of all cells. -/
structure Store where
  lists : Array (List Value) := #[]
  /-- Maps, as pairs in the order of insertion. -/
  dicts : Array (List (Value × Value)) := #[]
  scopes : Array Bindings := #[]
  /-- Iterators, as the items that are still to come. -/
  iters : Array (List Value) := #[]
  nextId : Nat := 0

namespace Store

def list (s : Store) (r : ListRef) : List Value := s.lists.getD r.index []

def dict (s : Store) (r : DictRef) : List (Value × Value) := s.dicts.getD r.index []

def scope (s : Store) (r : ScopeRef) : Bindings := s.scopes.getD r.index []

/-- The items that an iterator has still to yield. -/
def iter (s : Store) (r : IterRef) : List Value := s.iters.getD r.index []

def setList (s : Store) (r : ListRef) (items : List Value) : Store :=
  { s with lists := s.lists.setIfInBounds r.index items }

def setDict (s : Store) (r : DictRef) (pairs : List (Value × Value)) : Store :=
  { s with dicts := s.dicts.setIfInBounds r.index pairs }

def setScope (s : Store) (r : ScopeRef) (bindings : Bindings) : Store :=
  { s with scopes := s.scopes.setIfInBounds r.index bindings }

/-- Changes what an iterator has still to yield. -/
def setIter (s : Store) (r : IterRef) (items : List Value) : Store :=
  { s with iters := s.iters.setIfInBounds r.index items }

/-- Binds a name in a name space. -/
def bindName (s : Store) (r : ScopeRef) (x : String) (v : Value) : Store :=
  s.setScope r ((s.scope r).insert x v)

/-! ### New values -/

def fresh (s : Store) : Nat × Store := (s.nextId, { s with nextId := s.nextId + 1 })

def newList (s : Store) (items : List Value) : Value × Store :=
  (.list ⟨s.lists.size⟩, { s with lists := s.lists.push items })

def newDict (s : Store) (pairs : List (Value × Value)) : Value × Store :=
  (.dict ⟨s.dicts.size⟩, { s with dicts := s.dicts.push pairs })

def newScope (s : Store) (bindings : Bindings) : ScopeRef × Store :=
  (⟨s.scopes.size⟩, { s with scopes := s.scopes.push bindings })

def newIter (s : Store) (items : List Value) : Value × Store :=
  (.iterator ⟨s.iters.size⟩, { s with iters := s.iters.push items })

def newException (s : Store) (kind : String) (args : List Value) : Exception × Store :=
  let (id, s) := s.fresh
  (⟨id, kind, args⟩, s)

def newTraceback (s : Store) (entries : List TraceEntry) : Value × Store :=
  let (id, s) := s.fresh
  (.traceback id entries, s)

def newCode (s : Store) (unit : Code) : Value × Store :=
  let (id, s) := s.fresh
  (.code id unit, s)

def newFunction (s : Store) (code : Code) (defaults : List Value) (globals : ScopeRef)
    (closure : List Value) : Function × Store :=
  let (id, s) := s.fresh
  (⟨id, code, defaults, globals, closure⟩, s)

def newHook (s : Store) (kind : HookKind) (records : Bool) (answer : HookCall → HookAnswer) :
    Value × Store :=
  let (id, s) := s.fresh
  (.hook ⟨id, kind, records, answer⟩, s)

def newMethod (s : Store) (h : Hook) (call : HookCall) : Value × Store :=
  let (id, s) := s.fresh
  (.method id h call, s)

mutual

def ofConst (s : Store) : Const → Value × Store
  | .none => (.none, s)
  | .bool b => (.bool b, s)
  | .int n => (.int n, s)
  | .float x => (.float x, s)
  | .str t => (.str t, s)
  | .tuple items =>
    let (items, s) := ofConsts s items
    (.tuple items, s)
  | .code unit => s.newCode unit

def ofConsts (s : Store) : List Const → List Value × Store
  | [] => ([], s)
  | c :: cs =>
    let (v, s) := ofConst s c
    let (vs, s) := ofConsts s cs
    (v :: vs, s)

end

/-! ### Views -/

def truthy (s : Store) : Value → Bool
  | .none => false
  | .bool b => b
  | .int n => n != 0
  | .float x => !x.isZero
  | .str t => !t.isEmpty
  | .tuple items => !items.isEmpty
  | .list r => !(s.list r).isEmpty
  | .dict r => !(s.dict r).isEmpty
  | _ => true

/-- The items of a finite sequence: those of a tuple or list, the keys of a map, the characters of
a text. -/
def items? (s : Store) : Value → Option (List Value)
  | .tuple items => some items
  | .list r => some (s.list r)
  | .dict r => some ((s.dict r).map Prod.fst)
  | .str t => some (t.toList.map fun c => .str c.toString)
  | _ => none

end Store

end Bytewright
