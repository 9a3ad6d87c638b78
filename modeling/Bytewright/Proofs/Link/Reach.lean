import Bytewright.Proofs.Link.Store

/-!
# What can be reached

The cells that can be reached from values that do not lead to a function are linked to themselves as
cells without functions in them.
-/

namespace Bytewright.Store

open List

variable {s : Store} {roots : List Value}

def children (s : Store) : Value → List Value
  | .tuple items => items
  | .list r => s.list r
  | .dict r => (s.dict r).flatMap fun p => [p.1, p.2]
  | .space r => (s.scope r).map Prod.snd
  | .iterator r => s.iter r
  | .exception e => e.args
  | .function f => .space f.globals :: (f.defaults ++ f.closure)
  | _ => []

/-- The first value holds the second, or holds what leads to it. -/
def Reaches (s : Store) : Value → Value → Prop :=
  Relation.ReflTransGen fun v w => w ∈ s.children v

/-- No function can be reached from the values. -/
def FunctionFree (s : Store) (roots : List Value) : Prop :=
  ∀ v ∈ roots, ∀ f, ¬s.Reaches v (.function f)

def ReachedFrom (s : Store) (roots : List Value) (w : Value) : Prop := ∃ v ∈ roots, s.Reaches v w

def reached (s : Store) (roots : List Value) : Sharing where
  lists r := s.ReachedFrom roots (.list r) ∨ s.lists.size ≤ r.index
  dicts r := s.ReachedFrom roots (.dict r) ∨ s.dicts.size ≤ r.index
  scopes r := s.ReachedFrom roots (.space r) ∨ s.scopes.size ≤ r.index
  iters r := s.ReachedFrom roots (.iterator r) ∨ s.iters.size ≤ r.index
  functions := False
  exact := True
  logs := True

theorem ReachedFrom.child {v w : Value} (h : s.ReachedFrom roots v) (hw : w ∈ s.children v) :
    s.ReachedFrom roots w := by
  obtain ⟨root, hroot, hreach⟩ := h
  exact ⟨root, hroot, hreach.tail hw⟩

theorem ReachedFrom.of_mem {v : Value} (h : v ∈ roots) : s.ReachedFrom roots v := ⟨v, h, .refl⟩

namespace FunctionFree

theorem of_closed (p : Value → Prop) (hroots : ∀ v ∈ roots, p v)
    (hchildren : ∀ v, p v → ∀ w ∈ s.children v, p w) (hp : ∀ f, ¬p (.function f)) :
    s.FunctionFree roots := by
  intro v hv f hreach
  refine hp f ?_
  generalize Value.function f = u at hreach
  induction hreach with
  | refl => exact hroots v hv
  | tail _ hw ih => exact hchildren _ ih _ hw

mutual

theorem linked_self (hfree : s.FunctionFree roots) : ∀ v : Value, s.ReachedFrom roots v →
    v.Linked (s.reached roots) Eq v
  | .none, _ => .none
  | .bool b, _ => .bool b
  | .int n, _ => .int n
  | .float x, _ => .float x
  | .str t, _ => .str t
  | .tuple items, h => .tuple (linkedAll_self hfree items fun _ hw => h.child hw)
  | .list _, h => .list (.inl h)
  | .dict _, h => .dict (.inl h)
  | .space _, h => .space (.inl h)
  | .code _ unit, _ => .code rfl unit
  | .function f, ⟨v, hv, hreach⟩ => (hfree v hv f hreach).elim
  | .builtin b, _ => .builtin b
  | .exceptionType kind, _ => .exceptionType kind
  | .exception ⟨_, kind, args⟩, h =>
    .exception rfl kind (linkedAll_self hfree args fun _ hw => h.child hw)
  | .traceback _ entries, _ => .traceback rfl entries
  | .iterator _, h => .iterator (.inl h)
  | .hook _, _ => .hook rfl
  | .method _ _ call, _ => .method rfl rfl call

theorem linkedAll_self (hfree : s.FunctionFree roots) : ∀ vs : List Value,
    (∀ v ∈ vs, s.ReachedFrom roots v) → LinkedAll (s.reached roots) Eq vs vs
  | [], _ => .nil
  | v :: vs, h => .cons (linked_self hfree v (h v (mem_cons_self ..)))
    (linkedAll_self hfree vs fun w hw => h w (mem_cons_of_mem _ hw))

end

theorem store_linked_self (hfree : s.FunctionFree roots) :
    Store.Linked (s.reached roots) s.scope Eq s s := by
  -- a cell that is not there has no contents
  have hbeyond {α : Type} {E : α → α → Prop} {a : Array (List α)} {i : Nat} (hi : a.size ≤ i) :
      List.Forall₂ E (a.getD i []) (a.getD i []) := by
    rw [Array.getD_eq_getD_getElem?, Array.getElem?_eq_none hi]
    exact .nil
  refine ⟨⟨rfl, ?_, .inr⟩, ⟨rfl, ?_, .inr⟩, ⟨rfl, ?_, .inr⟩, ⟨rfl, ?_, .inr⟩, Pairing.sound_eq _,
    fun _ _ => rfl, fun _ => ⟨rfl, fun _ _ h => h⟩, fun hexact => absurd trivial hexact⟩
  · rintro i (h | hi)
    · exact linkedAll_self hfree _ fun _ hw => h.child hw
    · exact hbeyond hi
  · rintro i (h | hi)
    · refine forall₂_same.2 fun p hp => ?_
      have hchild {w : Value} (hw : w ∈ [p.1, p.2]) : s.ReachedFrom roots w :=
        h.child (mem_flatMap.2 ⟨p, hp, hw⟩)
      exact ⟨linked_self hfree _ (hchild (by simp)), linked_self hfree _ (hchild (by simp))⟩
    · exact hbeyond hi
  · rintro i (h | hi)
    · refine forall₂_same.2 fun p hp => ⟨rfl, linked_self hfree _ (h.child ?_)⟩
      exact mem_map_of_mem hp
    · exact hbeyond hi
  · rintro i (h | hi)
    · exact linkedAll_self hfree _ fun _ hw => h.child hw
    · exact hbeyond hi

end FunctionFree

end Bytewright.Store
