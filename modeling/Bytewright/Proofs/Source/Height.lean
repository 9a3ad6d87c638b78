import Bytewright.Proofs.Source.Grammar

/-!
# How high a parsed tree is

Within a room of `r` a tree has up to `tallest r` levels: the three chains add `r - 1` each to the
tree in the parentheses they start with, and a tuple, a comparison and a conditional one each.
-/

namespace Bytewright

/-! ### Heights -/

mutual

/-- The nesting depth of an expression. -/
def Expr.height : Expr → Nat
  | .literal _ | .name _ => 1
  | .attribute obj _ => obj.height + 1
  | .subscript obj key => max obj.height key.height + 1
  | .call func args kwargs =>
    max func.height (max (heightOfAll args) (heightOfKeywords kwargs)) + 1
  | .tuple items | .list items => heightOfAll items + 1
  | .dict pairs => heightOfPairs pairs + 1
  | .negate operand | .not operand => operand.height + 1
  | .binary _ left right | .compare _ left right => max left.height right.height + 1
  | .ifElse cond then_ else_ => max cond.height (max then_.height else_.height) + 1

def heightOfAll : List Expr → Nat
  | [] => 0
  | e :: es => max e.height (heightOfAll es)

def heightOfKeywords : List (String × Expr) → Nat
  | [] => 0
  | (_, e) :: kwargs => max e.height (heightOfKeywords kwargs)

def heightOfPairs : List (Expr × Expr) → Nat
  | [] => 0
  | (key, value) :: pairs => max (max key.height value.height) (heightOfPairs pairs)

end

theorem heightOfAll_le_iff {es : List Expr} {h : Nat} :
    heightOfAll es ≤ h ↔ ∀ e ∈ es, e.height ≤ h := by
  induction es with
  | nil => simp [heightOfAll]
  | cons e es ih => simp [heightOfAll, ih]

theorem Expr.height_pos (e : Expr) : 0 < e.height := by
  cases e <;> simp [Expr.height]

def Action.expressions : Action → List Expr
  | .expr e | .raise e => [e]
  | .assign (.name _) value => [value]
  | .assign (.attribute obj _) value => [obj, value]
  | .assign (.subscript obj key) value => [obj, key, value]
  | .delete _ | .pass => []

def Action.height (a : Action) : Nat := heightOfAll a.expressions

theorem Action.height_assign_le {e value : Expr} {target : Target}
    (htarget : e.target? = some target) :
    (Action.assign target value).height ≤ max e.height value.height := by
  unfold Expr.target? at htarget
  split at htarget <;> cases htarget <;> simp [Action.height, expressions, heightOfAll, Expr.height]
  all_goals omega

/-! ### Phrases -/

def Phrase.height : Phrase → Nat
  | .atom e | .primary e | .unary e | .product e | .sum e | .comparison e | .negation e | .full e
  | .several e => e.height
  | .items es => heightOfAll es
  | .pairs ps => heightOfPairs ps
  | .arguments args kwargs => max (heightOfAll args) (heightOfKeywords kwargs)

/-- The tokens spell the phrase, and its trees are not higher than the bound. -/
structure SpellsLow (bound : Nat) (p : Phrase) (ts : List Located) : Prop where
  spells : Spells p ts
  low : p.height ≤ bound

namespace SpellsLow

variable {bound bound' : Nat} {p : Phrase} {ts us : List Located} {k : Located} {e : Expr}
  {es : List Expr}

theorem weaken (h : SpellsLow bound p ts) (hle : bound ≤ bound') : SpellsLow bound' p ts :=
  ⟨h.spells, h.low.trans hle⟩

theorem append_nil (h : SpellsLow bound p ts) (n : Nat) : SpellsLow (bound + n) p (ts ++ []) := by
  rw [List.append_nil]
  exact h.weaken (Nat.le_add_right _ _)

theorem noItem : SpellsLow bound (.items []) [] := ⟨.noItem, Nat.zero_le _⟩

theorem lastItem (h : SpellsLow bound (.full e) ts) : SpellsLow bound (.items [e]) ts :=
  ⟨.lastItem h.spells, max_le h.low (Nat.zero_le _)⟩

theorem item (h : SpellsLow bound (.full e) ts) (hk : k.token = .symbol .comma)
    (hes : SpellsLow bound (.items es) us) : SpellsLow bound (.items (e :: es)) (ts ++ k :: us) :=
  ⟨.item h.spells hk hes.spells, max_le h.low hes.low⟩

end SpellsLow

/-! ### Rooms -/

namespace Parser

/-- A bound on the height of what parses within this room. -/
def tallest : Nat → Nat
  | 0 => 0
  | 1 => 2
  | room + 2 => tallest (room + 1) + 3 * (room + 1) + 3

theorem tallest_succ_of_pos {room : Nat} (h : 0 < room) :
    tallest (room + 1) = tallest room + 3 * room + 3 := by
  obtain ⟨room, rfl⟩ := Nat.exists_eq_succ_of_ne_zero h.ne'
  rfl

theorem tallest_add_le_tallest_succ (room : Nat) :
    tallest room + 3 * room + 2 ≤ tallest (room + 1) := by
  rcases Nat.eq_zero_or_pos room with rfl | h
  · exact le_rfl
  · rw [tallest_succ_of_pos h]
    omega

end Parser

end Bytewright
