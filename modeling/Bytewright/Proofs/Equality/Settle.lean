import Bytewright.Proofs.Equality.Depth

/-!
# Comparisons that come to an answer

From one depth to the next, more and more pairs of cells settle, and where no pair is added, none is
added later.
-/

namespace Bytewright.Store

open List

variable {s : Store} {held : Option DictRef} {settled settled' : Value → Value → Bool} {a b : Value}
  {n m : Nat}

/-! ### Cells decide -/

theorem settlesBy_of_isCell (ha : a.isCell = true) :
    s.settlesBy held settled a b =
      (!meets held a b && (s.compared a b).all fun p => settled p.1 p.2) := by
  cases a with
  | list | dict => rfl
  | _ => cases ha

mutual

theorem settlesBy_of_cells (h : ∀ {a b}, a.isCell = true → s.settlesBy held settled a b = true →
      s.settlesBy held settled' a b = true) :
    ∀ {a b : Value}, s.settlesBy held settled a b = true → s.settlesBy held settled' a b = true
  | a, b, hs => by
    cases a with
    | tuple xs =>
      cases b with
      | tuple ys =>
        rw [settlesBy, Bool.or_eq_true] at hs ⊢
        exact hs.imp_right (settlesAllBy_of_cells h)
      | _ => rfl
    | list | dict => exact h rfl hs
    | _ => rfl

theorem settlesAllBy_of_cells (h : ∀ {a b}, a.isCell = true → s.settlesBy held settled a b = true →
      s.settlesBy held settled' a b = true) :
    ∀ {as bs : List Value}, s.settlesAllBy held settled as bs = true →
      s.settlesAllBy held settled' as bs = true
  | [], bs, _ => by cases bs <;> rfl
  | a :: as, [], _ => rfl
  | a :: as, b :: bs, hs => by
    rw [settlesAllBy, Bool.and_eq_true, Bool.or_eq_true] at hs ⊢
    exact ⟨settlesBy_of_cells h hs.1, hs.2.imp_right (settlesAllBy_of_cells h)⟩

end

theorem settlesBy_mono (h : ∀ a b, settled a b = true → settled' a b = true) :
    s.settlesBy held settled a b = true → s.settlesBy held settled' a b = true := by
  refine settlesBy_of_cells fun ha hs => ?_
  rw [settlesBy_of_isCell ha, Bool.and_eq_true, all_eq_true] at hs ⊢
  exact ⟨hs.1, fun p hp => h _ _ (hs.2 p hp)⟩

theorem settlesUpTo_succ (s : Store) (held : Option DictRef) (n : Nat) (a b : Value) :
    s.settlesUpTo held n a b = true → s.settlesUpTo held (n + 1) a b = true := by
  induction n generalizing a b with
  | zero => exact settlesBy_mono (by simp)
  | succ n ih => exact settlesBy_mono ih

theorem settlesUpTo_mono (h : n ≤ m) :
    s.settlesUpTo held n a b = true → s.settlesUpTo held m a b = true := by
  induction m, h using Nat.le_induction with
  | base => exact id
  | succ m _ ih => exact fun hn => s.settlesUpTo_succ held m a b (ih hn)

/-! ### Pairs of cells -/

def cellPair (s : Store) :
    Fin s.lists.size × Fin s.lists.size ⊕ Fin s.dicts.size × Fin s.dicts.size → Value × Value
  | .inl (i, j) => (.list ⟨i⟩, .list ⟨j⟩)
  | .inr (i, j) => (.dict ⟨i⟩, .dict ⟨j⟩)

-- what is not there holds nothing
theorem compared_of_missing (h : ∀ c, s.cellPair c ≠ (a, b)) : s.compared a b = [] := by
  have hnil {α : Type} {cells : Array (List α)} {i : Nat} (hi : ¬i < cells.size) :
      cells.getD i [] = [] := by
    rw [Array.getD_eq_getD_getElem?, Array.getElem?_eq_none (Nat.le_of_not_lt hi)]
    rfl
  unfold compared
  split
  · next x y =>
    split_ifs
    · rfl
    by_cases hx : x.index < s.lists.size
    · have hy : s.list y = [] := hnil fun hy => h (.inl (⟨_, hx⟩, ⟨_, hy⟩)) rfl
      rw [hy]
      cases s.list x <;> rfl
    · rw [show s.list x = [] from hnil hx]
      cases s.list y <;> rfl
  · next x y =>
    split_ifs with hlength
    · rfl
    have hx : s.dict x = [] := by
      by_cases hx : x.index < s.dicts.size
      · have hy : s.dict y = [] := hnil fun hy => h (.inr (⟨_, hx⟩, ⟨_, hy⟩)) rfl
        rw [hy, bne_iff_ne, not_not] at hlength
        exact length_eq_zero_iff.1 hlength
      · exact hnil hx
    rw [hx]
    rfl
  · rfl

/-- The pairs of cells that settle at a depth. -/
def settledCells (s : Store) (held : Option DictRef) (n : Nat) :
    Finset (Fin s.lists.size × Fin s.lists.size ⊕ Fin s.dicts.size × Fin s.dicts.size) :=
  Finset.univ.filter fun c => s.settlesUpTo held n (s.cellPair c).1 (s.cellPair c).2

theorem mem_settledCells {c} : c ∈ s.settledCells held n ↔
    s.settlesUpTo held n (s.cellPair c).1 (s.cellPair c).2 = true := by
  simp [settledCells]

theorem settledCells_mono (s : Store) (held : Option DictRef) : Monotone (s.settledCells held) :=
  fun _ _ hle _ hc => mem_settledCells.2 (settlesUpTo_mono hle (mem_settledCells.1 hc))

theorem card_settledCells_le (s : Store) (held : Option DictRef) (n : Nat) :
    (s.settledCells held n).card ≤ s.pairsOfCells := by
  have hcard := Finset.card_le_univ (s.settledCells held n)
  rwa [Fintype.card_sum, Fintype.card_prod, Fintype.card_prod, Fintype.card_fin,
    Fintype.card_fin] at hcard

theorem settlesUpTo_of_subset (h : s.settledCells held m ⊆ s.settledCells held n) (a b : Value) :
    s.settlesUpTo held m a b = true → s.settlesUpTo held n a b = true := by
  have hdepth (k : Nat) : ∃ settled, s.settlesUpTo held k = s.settlesBy held settled := by
    cases k <;> exact ⟨_, rfl⟩
  obtain ⟨settled, hm⟩ := hdepth m
  obtain ⟨settled', hn⟩ := hdepth n
  rw [hm, hn]
  refine settlesBy_of_cells fun {a b} ha hs => ?_
  by_cases hc : ∃ c, s.cellPair c = (a, b)
  · obtain ⟨c, hc⟩ := hc
    have hmem : c ∈ s.settledCells held m := mem_settledCells.2 (by rwa [hc, hm])
    have hmem' := mem_settledCells.1 (h hmem)
    rwa [hc, hn] at hmem'
  · rw [settlesBy_of_isCell ha, compared_of_missing fun c h => hc ⟨c, h⟩] at hs ⊢
    exact hs

/-! ### The depth that is enough -/

/-- A comparison comes to an answer if it does at any depth. -/
theorem settles_iff_exists (s : Store) (held : Option DictRef) (a b : Value) :
    s.settles held a b = true ↔ ∃ n, s.settlesUpTo held n a b = true := by
  refine ⟨fun h => ⟨_, h⟩, fun ⟨n, hn⟩ => ?_⟩
  rcases Nat.le_total n s.pairsOfCells with hle | hle
  · exact settlesUpTo_mono (Nat.le_succ_of_le hle) hn
  have hsubset {k l : Nat} (hkl : k ≤ l)
      (hcard : (s.settledCells held l).card ≤ (s.settledCells held k).card) :
      s.settledCells held l ⊆ s.settledCells held k :=
    (Finset.eq_of_subset_of_card_le (s.settledCells_mono held hkl) hcard).ge
  have hstable := Nat.stabilises_of_monotone (f := fun n => (s.settledCells held n).card)
    (fun _ _ hle => Finset.card_le_card (s.settledCells_mono held hle))
    (s.card_settledCells_le held) (fun k hk => ?_) hle
  · exact s.settlesUpTo_succ held _ a b (settlesUpTo_of_subset (hsubset hle hstable.le) a b hn)
  · have hback := settlesUpTo_of_subset (hsubset k.le_succ hk.ge)
    refine congrArg Finset.card ((s.settledCells_mono held (k + 1).le_succ).antisymm fun c hc => ?_)
    exact mem_settledCells.2 (settlesBy_mono hback (mem_settledCells.1 hc))

end Bytewright.Store
