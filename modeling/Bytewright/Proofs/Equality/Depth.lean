import Mathlib
import Bytewright.Machine.Equality

/-!
# How deep equality looks

Where values do not lead back to themselves, each list and each map is met at most once on the way
down, so the depth to which equality is computed is never reached.
-/

namespace Bytewright

open List

def Value.isCell : Value → Bool
  | .list _ | .dict _ => true
  | _ => false

namespace Store

variable {s t : Store} {inner inner' : Value → Value → Bool} {a b v w : Value} {r : DictRef}
  {p : Value × Value}

/-! ### Parts -/

/-- The values that equality looks at when it looks into a value. -/
def parts (s : Store) : Value → List Value
  | .tuple items => items
  | .list r => s.list r
  | .dict r => (s.dict r).flatMap fun p => [p.1, p.2]
  | _ => []

/-- Equality of `v` looks at `w` next. -/
def PartOf (s : Store) (w v : Value) : Prop := w ∈ s.parts v

/-- Equality of `v` may come to `w`. -/
def Inside (s : Store) : Value → Value → Prop := Relation.ReflTransGen s.PartOf

/-- Nothing inside the value contains itself. -/
def Acyclic (s : Store) (v : Value) : Prop :=
  ∀ w, s.Inside w v → ¬Relation.TransGen s.PartOf w w

/-- `w` is a part of a cell that is inside of `v`. -/
def Beneath (s : Store) (w v : Value) : Prop :=
  ∃ c, s.Inside c v ∧ c.isCell = true ∧ s.PartOf w c

theorem key_partOf (hp : p ∈ s.dict r) : s.PartOf p.1 (.dict r) :=
  mem_flatMap.2 ⟨p, hp, mem_cons_self⟩

theorem value_partOf (hp : p ∈ s.dict r) : s.PartOf p.2 (.dict r) :=
  mem_flatMap.2 ⟨p, hp, mem_cons_of_mem _ mem_cons_self⟩

theorem Acyclic.inside (h : s.Acyclic v) (hw : s.Inside w v) : s.Acyclic w :=
  fun u hu => h u (hu.trans hw)

theorem Acyclic.part (h : s.Acyclic v) (hw : s.PartOf w v) : s.Acyclic w :=
  h.inside (.single hw)

theorem Acyclic.of_parts (h : ∀ w, s.PartOf w v → s.Acyclic w) : s.Acyclic v := by
  intro w hw hcycle
  rcases hw.cases_tail with rfl | ⟨u, hu, huv⟩
  · obtain ⟨u, hu, huv⟩ := Relation.TransGen.tail'_iff.1 hcycle
    exact h u huv u .refl (.head' huv hu)
  · exact h u huv w hu hcycle

/-! ### Heights -/

def cell (s : Store) : Fin s.lists.size ⊕ Fin s.dicts.size → Value
  | .inl i => .list ⟨i⟩
  | .inr i => .dict ⟨i⟩

open Classical in
noncomputable def cellsInside (s : Store) (v : Value) :
    Finset (Fin s.lists.size ⊕ Fin s.dicts.size) :=
  Finset.univ.filter fun c => s.Inside (s.cell c) v

noncomputable def height (s : Store) (v : Value) : Nat := (s.cellsInside v).card

theorem mem_cellsInside {c : Fin s.lists.size ⊕ Fin s.dicts.size} :
    c ∈ s.cellsInside v ↔ s.Inside (s.cell c) v := by
  simp [cellsInside]

theorem height_le_of_inside (h : s.Inside w v) : s.height w ≤ s.height v :=
  Finset.card_le_card fun _ hc => mem_cellsInside.2 ((mem_cellsInside.1 hc).trans h)

theorem height_le_pairsOfCells (s : Store) (v : Value) : s.height v ≤ s.pairsOfCells := by
  have hcard := Finset.card_le_univ (s.cellsInside v)
  rw [Fintype.card_sum, Fintype.card_fin, Fintype.card_fin] at hcard
  exact hcard.trans (Nat.add_le_add (Nat.le_mul_self _) (Nat.le_mul_self _))

theorem exists_cell_of_partOf (hv : v.isCell = true) (hw : s.PartOf w v) :
    ∃ c, s.cell c = v := by
  -- what is not there has no parts
  have hbound {α : Type} {cells : Array (List α)} {i : Nat} {x : α} (hx : x ∈ cells.getD i []) :
      i < cells.size := by
    by_contra hi
    rw [Array.getD_eq_getD_getElem?, Array.getElem?_eq_none (Nat.le_of_not_lt hi)] at hx
    cases hx
  cases v with
  | list r => exact ⟨.inl ⟨r.index, hbound hw⟩, rfl⟩
  | dict r =>
    obtain ⟨p, hp, -⟩ := mem_flatMap.1 hw
    exact ⟨.inr ⟨r.index, hbound hp⟩, rfl⟩
  | _ => cases hv

theorem Acyclic.height_lt (h : s.Acyclic v) (hw : s.Beneath w v) : s.height w < s.height v := by
  obtain ⟨c, hc, hcell, hpart⟩ := hw
  obtain ⟨k, rfl⟩ := exists_cell_of_partOf hcell hpart
  refine lt_of_lt_of_le (Finset.card_lt_card ?_) (height_le_of_inside hc)
  refine Finset.ssubset_iff_of_subset (fun d hd => ?_) |>.2 ⟨k, ?_, ?_⟩
  · exact mem_cellsInside.2 ((mem_cellsInside.1 hd).tail hpart)
  · exact mem_cellsInside.2 .refl
  · exact fun hk => h _ hc (.tail' (mem_cellsInside.1 hk) hpart)

-- a cell is higher than its parts, and a tuple is larger than its items
theorem Acyclic.lex_lt (h : s.Acyclic v) (hw : s.PartOf w v) :
    Prod.Lex (· < ·) (· < ·) (s.height w, sizeOf w) (s.height v, sizeOf v) := by
  cases v with
  | list r | dict r => exact .left _ _ (h.height_lt ⟨_, .refl, rfl, hw⟩)
  | tuple items =>
    have hsize : sizeOf w < sizeOf (Value.tuple items) := by
      have hlt := sizeOf_lt_of_mem (show w ∈ items from hw)
      rw [Value.tuple.sizeOf_spec]
      omega
    rcases (height_le_of_inside (.single hw)).lt_or_eq with hlt | heq
    · exact .left _ _ hlt
    · rw [heq]
      exact .right _ hsize
  | _ => cases hw

theorem Acyclic.induction {motive : Value → Prop}
    (step : ∀ v, s.Acyclic v → (∀ w, s.PartOf w v → motive w) → motive v) (v : Value)
    (hv : s.Acyclic v) : motive v :=
  step v hv fun w hw => Acyclic.induction step w (hv.part hw)
termination_by (s.height v, sizeOf v)
decreasing_by exact hv.lex_lt hw

/-! ### Equality of what cells hold -/

theorem equalLists_congr {vs ws : List Value} (h : ∀ v ∈ vs, ∀ w ∈ ws, inner v w = inner' v w) :
    equalLists inner vs ws = equalLists inner' vs ws := by
  induction vs generalizing ws with
  | nil => cases ws <;> rfl
  | cons v vs ih =>
    cases ws with
    | nil => rfl
    | cons w ws =>
      rw [equalLists, equalLists, h v mem_cons_self w mem_cons_self,
        ih fun u hu x hx => h u (mem_cons_of_mem _ hu) x (mem_cons_of_mem _ hx)]

theorem equalMaps_congr {as bs : List (Value × Value)}
    (hkeys : ∀ p ∈ as, ∀ q ∈ bs, inner p.1 q.1 = inner' p.1 q.1)
    (hvalues : ∀ p ∈ as, ∀ q ∈ bs, inner p.2 q.2 = inner' p.2 q.2) :
    equalMaps inner as bs = equalMaps inner' as bs := by
  rw [equalMaps, equalMaps]
  congr 1
  rw [Bool.eq_iff_iff, all_eq_true, all_eq_true]
  refine forall₂_congr fun p hp => ?_
  rw [any_eq_true, any_eq_true]
  exact exists_congr fun q => and_congr_right fun hq => by rw [hkeys p hp q hq, hvalues p hp q hq]

/-- The cells inside two values compare alike. -/
structure Alike (s t : Store) (inner inner' : Value → Value → Bool) (a b : Value) : Prop where
  lists : ∀ x y, s.Inside (.list x) a → s.Inside (.list y) b →
    equalLists inner (s.list x) (s.list y) = equalLists inner' (t.list x) (t.list y)
  dicts : ∀ x y, s.Inside (.dict x) a → s.Inside (.dict y) b →
    equalMaps inner (s.dict x) (s.dict y) = equalMaps inner' (t.dict x) (t.dict y)

mutual

theorem Alike.equalsBy_eq : ∀ {a b : Value}, s.Alike t inner inner' a b →
    s.equalsBy inner a b = t.equalsBy inner' a b
  | a, b, h => by
    cases a with
    | tuple xs =>
      cases b with
      | tuple ys =>
        exact equalAllBy_eq_of_alike fun v hv w hw =>
          ⟨fun x y hx hy => h.lists x y (hx.tail hv) (hy.tail hw),
            fun x y hx hy => h.dicts x y (hx.tail hv) (hy.tail hw)⟩
      | _ => rfl
    | list x =>
      cases b with
      | list y => rw [equalsBy, equalsBy, h.lists x y .refl .refl]
      | _ => rfl
    | dict x =>
      cases b with
      | dict y => exact h.dicts x y .refl .refl
      | _ => rfl
    | _ => rfl

theorem equalAllBy_eq_of_alike : ∀ {as bs : List Value},
    (∀ v ∈ as, ∀ w ∈ bs, s.Alike t inner inner' v w) →
    s.equalAllBy inner as bs = t.equalAllBy inner' as bs
  | [], bs, _ => by cases bs <;> rfl
  | a :: as, [], _ => rfl
  | a :: as, b :: bs, h => by
    rw [equalAllBy, equalAllBy, (h a mem_cons_self b mem_cons_self).equalsBy_eq,
      equalAllBy_eq_of_alike fun v hv w hw =>
        h v (mem_cons_of_mem _ hv) w (mem_cons_of_mem _ hw)]

end

theorem equalsBy_congr (hlist : t.list = s.list)
    (hdict : ∀ x, s.Inside (.dict x) a ∨ s.Inside (.dict x) b → t.dict x = s.dict x)
    (h : ∀ v w, s.Beneath v a → s.Beneath w b → inner v w = inner' v w) :
    s.equalsBy inner a b = t.equalsBy inner' a b := by
  refine Alike.equalsBy_eq ⟨fun x y hx hy => ?_, fun x y hx hy => ?_⟩
  · rw [hlist]
    exact equalLists_congr fun v hv w hw => h v w ⟨_, hx, rfl, hv⟩ ⟨_, hy, rfl, hw⟩
  · rw [hdict x (.inl hx), hdict y (.inr hy)]
    exact equalMaps_congr
      (fun p hp q hq => h _ _ ⟨_, hx, rfl, key_partOf hp⟩ ⟨_, hy, rfl, key_partOf hq⟩)
      fun p hp q hq => h _ _ ⟨_, hx, rfl, value_partOf hp⟩ ⟨_, hy, rfl, value_partOf hq⟩

/-! ### The depth that is enough -/

theorem Beneath.inside (h : s.Beneath w v) : s.Inside w v := by
  obtain ⟨c, hc, -, hpart⟩ := h
  exact .head hpart hc

theorem Acyclic.equalsUpTo_succ {n : Nat} (h : s.Acyclic a) (hn : s.height a ≤ n) (b : Value) :
    s.equalsUpTo (n + 1) a b = s.equalsUpTo n a b := by
  induction n generalizing a b with
  | zero =>
    refine equalsBy_congr rfl (fun _ _ => rfl) fun v w hv _ => ?_
    have hlt := h.height_lt hv
    omega
  | succ n ih =>
    refine equalsBy_congr rfl (fun _ _ => rfl) fun v w hv _ => ?_
    have hlt := h.height_lt hv
    exact ih (h.inside hv.inside) (by omega) w

theorem Acyclic.equals_eq (h : s.Acyclic a) (b : Value) : s.equals a b = s.equalsBy s.equals a b :=
  (h.equalsUpTo_succ (Nat.le_succ_of_le (s.height_le_pairsOfCells a)) b).symm

end Store

end Bytewright
