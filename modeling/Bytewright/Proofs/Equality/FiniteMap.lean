import Bytewright.Proofs.Equality.Equivalence
import Bytewright.Proofs.Machine.DistinctKeys

/-!
# Maps as finite functions

Setting a key of a map changes what is found under this key and under no other one.  A key that is a
map and has a key of its own twice is equal to maps that are not equal to each other.  Under such a
key, what is set for one of them is found for the other.
-/

namespace Bytewright

open List

/-! ### Lists of pairs -/

section Pairs

variable {same same' : Value → Value → Bool} {key other v : Value} {pairs : List (Value × Value)}

theorem findPair?_insertPair
    (hsame : same key other = true → ∀ p ∈ pairs, same p.1 other = same p.1 key)
    (hother : same key other = false → ∀ p ∈ pairs, same p.1 key = true → same p.1 other = false) :
    findPair? same other (insertPair same key v pairs) =
      if same key other then some v else findPair? same other pairs := by
  induction pairs with
  | nil => cases h : same key other <;> simp [insertPair, findPair?, h]
  | cons p pairs ih =>
    have hrest := ih (fun h => (forall_mem_cons.1 (hsame h)).2)
      fun h => (forall_mem_cons.1 (hother h)).2
    rw [insertPair]
    cases h : same key other with
    | true =>
      have hp := hsame h p mem_cons_self
      cases hk : same p.1 key <;> simp_all [findPair?]
    | false =>
      have hp := hother h p mem_cons_self
      cases hk : same p.1 key <;> cases ho : same p.1 other <;> simp_all [findPair?]

theorem findPair?_congr (h : ∀ a ∈ pairs.map Prod.fst, same a key = same' a key) :
    findPair? same key pairs = findPair? same' key pairs := by
  rw [findPair?, findPair?]
  refine congrArg (Option.map Prod.snd) (find?_congr fun p hp => ?_)
  exact h p.1 (mem_map_of_mem hp)

end Pairs

namespace Store

variable {s : Store} {unitOf : Nat → Code} {r : DictRef} {a b k v w : Value}

instance (s : Store) (v w : Value) : Decidable (s.Equal v w) :=
  inferInstanceAs (Decidable (_ = true))

def keys (s : Store) (r : DictRef) : List Value := (s.dict r).map Prod.fst

/-- The value contains neither itself, nor a float, nor the map. -/
structure KeyFor (s : Store) (r : DictRef) (k : Value) : Prop where
  acyclic : s.Acyclic k
  floatless : ∀ x, ¬s.Inside (.float x) k
  apart : ¬s.Inside (.dict r) k

/-! ### Keys do not depend on the map -/

section Frame

variable (pairs : List (Value × Value))

theorem dict_setDict_self (hr : r.index < s.dicts.size) : (s.setDict r pairs).dict r = pairs := by
  simp [dict, setDict, Array.getD_eq_getD_getElem?, Array.getElem?_setIfInBounds_self_of_lt hr]

theorem dict_setDict_of_ne {x : DictRef} (h : x ≠ r) : (s.setDict r pairs).dict x = s.dict x := by
  have hindex : r.index ≠ x.index := fun heq => h (by cases x; cases r; cases heq; rfl)
  simp [dict, setDict, Array.getD_eq_getD_getElem?, Array.getElem?_setIfInBounds_ne hindex]

theorem equalsUpTo_setDict (n : Nat) (ha : ¬s.Inside (.dict r) a) (hb : ¬s.Inside (.dict r) b) :
    s.equalsUpTo n a b = (s.setDict r pairs).equalsUpTo n a b := by
  have hdict {a b : Value} (ha : ¬s.Inside (.dict r) a) (hb : ¬s.Inside (.dict r) b) (x : DictRef)
      (hx : s.Inside (.dict x) a ∨ s.Inside (.dict x) b) :
      (s.setDict r pairs).dict x = s.dict x := by
    refine dict_setDict_of_ne pairs ?_
    rintro rfl
    exact hx.elim ha hb
  induction n generalizing a b with
  | zero => exact equalsBy_congr rfl (hdict ha hb) fun _ _ _ _ => rfl
  | succ n ih =>
    refine equalsBy_congr rfl (hdict ha hb) fun v w hv hw => ih (fun h => ?_) fun h => ?_
    · exact ha (h.trans hv.inside)
    · exact hb (h.trans hw.inside)

/-- Equality of values that do not contain a map does not depend on its pairs. -/
theorem equals_setDict (ha : ¬s.Inside (.dict r) a) (hb : ¬s.Inside (.dict r) b) :
    (s.setDict r pairs).equals a b = s.equals a b := by
  have hsize : (s.setDict r pairs).pairsOfCells = s.pairsOfCells := by
    simp [pairsOfCells, setDict]
  rw [equals, equals, hsize, ← equalsUpTo_setDict pairs _ ha hb]

theorem equal_setDict_iff (ha : ¬s.Inside (.dict r) a) (hb : ¬s.Inside (.dict r) b) :
    (s.setDict r pairs).Equal a b ↔ s.Equal a b := by
  rw [Equal, Equal, equals_setDict pairs ha hb]

end Frame

/-! ### Setting a key -/

theorem item_dict (s : Store) (r : DictRef) (k : Value) :
    s.item (.dict r) k =
      (findPair? s.equals k (s.dict r)).elim (.error (.missingKey k)) .ok := by
  rw [item]
  split
  · next h => rw [h]; rfl
  · next h => rw [h]; rfl

theorem item_dict_cases (s : Store) (r : DictRef) (k : Value) :
    (s.item (.dict r) k = .error (.missingKey k) ∧ ∀ a ∈ s.keys r, ¬s.Equal a k) ∨
      (∃ w, s.item (.dict r) k = .ok w) ∧ ∃ a ∈ s.keys r, s.Equal a k := by
  rw [item_dict, findPair?]
  cases hfound : (s.dict r).find? fun p => s.equals p.1 k with
  | none =>
    refine .inl ⟨rfl, fun a ha => ?_⟩
    obtain ⟨p, hp, rfl⟩ := mem_map.1 ha
    exact find?_eq_none.1 hfound p hp
  | some p =>
    have hsame := find?_some hfound
    exact .inr ⟨⟨p.2, rfl⟩, p.1, mem_map_of_mem (mem_of_find?_eq_some hfound), hsame⟩

section Set

variable (hr : r.index < s.dicts.size) (hkeys : ∀ a ∈ s.keys r, ¬s.Inside (.dict r) a)
  (hk : ¬s.Inside (.dict r) k) (v : Value)

include hr

theorem keys_setPair_cases (k v : Value) :
    (s.item (.dict r) k = .error (.missingKey k) ∧ (∀ a ∈ s.keys r, ¬s.Equal a k) ∧
        (s.setPair r k v).keys r = s.keys r ++ [k]) ∨
      (∃ w, s.item (.dict r) k = .ok w) ∧ (s.setPair r k v).keys r = s.keys r := by
  have hset : (s.setPair r k v).keys r =
      if (s.keys r).any fun a => s.equals a k then s.keys r else s.keys r ++ [k] := by
    rw [keys, setPair, dict_setDict_self _ hr, keys_insertPair, keys, any_map]
    rfl
  rw [hset]
  rcases s.item_dict_cases r k with ⟨hitem, hnone⟩ | ⟨hitem, a, ha, hsame⟩
  · refine .inl ⟨hitem, hnone, if_neg fun hany => ?_⟩
    obtain ⟨a, ha, hsame⟩ := any_eq_true.1 hany
    exact hnone a ha hsame
  · have hany : ((s.keys r).any fun a => s.equals a k) = true := any_eq_true.2 ⟨a, ha, hsame⟩
    exact .inr ⟨hitem, if_pos hany⟩

theorem length_setPair_iff (k v : Value) :
    ((s.setPair r k v).dict r).length = (s.dict r).length + 1 ↔
      s.item (.dict r) k = .error (.missingKey k) := by
  have hlength (t : Store) : (t.dict r).length = (t.keys r).length := by rw [keys, length_map]
  rw [hlength, hlength]
  rcases keys_setPair_cases hr k v with ⟨hitem, -, h⟩ | ⟨⟨w, hitem⟩, h⟩
  · simp [h, hitem]
  · simp [h, hitem]

theorem forall_mem_keys_setPair {P : Value → Prop} (hkeys : ∀ a ∈ s.keys r, P a) (hk : P k) :
    ∀ a ∈ (s.setPair r k v).keys r, P a := by
  rcases keys_setPair_cases hr k v with ⟨-, -, h⟩ | ⟨-, h⟩
  · rw [h]
    exact forall_mem_append.2 ⟨hkeys, forall_mem_singleton.2 hk⟩
  · rwa [h]

include hkeys hk

theorem item_setPair (ha : ¬s.Inside (.dict r) a)
    (hsame : s.equals k a = true → ∀ b ∈ s.keys r, s.equals b a = s.equals b k)
    (hother : s.equals k a = false → ∀ b ∈ s.keys r, s.Equal b k → s.equals b a = false) :
    (s.setPair r k v).item (.dict r) a =
      if s.equals k a then .ok v else s.item (.dict r) a := by
  have hpairs : (s.setPair r k v).dict r = insertPair s.equals k v (s.dict r) :=
    dict_setDict_self _ hr
  have hequals : ∀ b ∈ (s.setPair r k v).keys r, (s.setPair r k v).equals b a = s.equals b a :=
    fun b hb => equals_setDict _ (forall_mem_keys_setPair hr v hkeys hk b hb) ha
  rw [item_dict, findPair?_congr hequals, hpairs,
    findPair?_insertPair (fun h p hp => hsame h _ (mem_map_of_mem hp)) fun h p hp =>
      hother h _ (mem_map_of_mem hp), item_dict]
  split <;> rfl

theorem item_setPair_self (hkk : s.Equal k k) : (s.setPair r k v).item (.dict r) k = .ok v := by
  rw [item_setPair hr hkeys hk v hk (fun _ _ _ => rfl) fun h => absurd (h.symm.trans hkk) nofun]
  exact if_pos hkk

/-! ### Keys without repetitions inside -/

variable (hexact : ∀ b ∈ s.keys r, s.Exact unitOf b) (hke : s.Exact unitOf k)

include hexact hke

theorem item_setPair_of_exact (ha : ¬s.Inside (.dict r) a) (hae : s.Exact unitOf a) :
    (s.setPair r k v).item (.dict r) a =
      if s.equals k a then .ok v else s.item (.dict r) a := by
  refine item_setPair hr hkeys hk v ha (fun hka b hb => ?_) fun hka b hb hbk => ?_
  · have hbe := (hexact b hb).exchanges.2
    exact Bool.eq_iff_iff.2 ⟨fun hba => hbe a k hae hke hba (hke.exchanges.1 a hae hka),
      fun hbk => hbe k a hke hae hbk hka⟩
  · rw [← Bool.not_eq_true] at hka ⊢
    have hkb := (hexact b hb).exchanges.1 k hke hbk
    exact fun hba => hka (hke.exchanges.2 b a (hexact b hb) hae hkb hba)

theorem pairwise_keys_setPair (hdistinct : (s.keys r).Pairwise fun a b => ¬s.Equal a b) :
    ((s.setPair r k v).keys r).Pairwise fun a b =>
      ¬(s.setPair r k v).Equal a b ∧ ¬(s.setPair r k v).Equal b a := by
  have hdistinct' : ((s.setPair r k v).keys r).Pairwise fun a b => ¬s.Equal a b := by
    rcases keys_setPair_cases hr k v with ⟨-, hnone, h⟩ | ⟨-, h⟩
    · rw [h]
      refine pairwise_append.2 ⟨hdistinct, pairwise_singleton _ _, fun a ha b hb => ?_⟩
      rw [mem_singleton.1 hb]
      exact hnone a ha
    · rwa [h]
  have hkeys' := forall_mem_keys_setPair hr v hkeys hk
  have hexact' := forall_mem_keys_setPair hr v hexact hke
  refine hdistinct'.imp_of_mem fun {a b} ha hb hab => ?_
  have hba : ¬s.Equal b a := fun hba => hab ((hexact' b hb).exchanges.1 a (hexact' a ha) hba)
  rw [setPair, equal_setDict_iff _ (hkeys' a ha) (hkeys' b hb),
    equal_setDict_iff _ (hkeys' b hb) (hkeys' a ha)]
  exact ⟨hab, hba⟩

end Set

/-- Setting a key of a map, of which no key contains the map itself, puts the key behind the others
if it is not there, and leaves the keys and their order as they are if it is.  The value is found
under the key.  If moreover no map inside a key has two equal keys, it is found under every key that
is equal to this one, whatever was found under other keys is found there still, and the keys stay
unequal to each other. -/
theorem setItem_updates_map (s : Store) (unitOf : Nat → Code) (r : DictRef) (k v : Value)
    (hr : r.index < s.dicts.size) (hkeys : ∀ a ∈ s.keys r, s.KeyFor r a)
    (hdistinct : (s.keys r).Pairwise fun a b => ¬s.Equal a b) (hk : s.KeyFor r k) :
    ∃ s', s.setItem (.dict r) k v = .ok s' ∧ s' = s.setPair r k v ∧
      s'.item (.dict r) k = .ok v ∧
      ((s.item (.dict r) k = .error (.missingKey k) ∧ s'.keys r = s.keys r ++ [k]) ∨
        (∃ w, s.item (.dict r) k = .ok w) ∧ s'.keys r = s.keys r) ∧
      ((s'.dict r).length = (s.dict r).length + 1 ↔
        s.item (.dict r) k = .error (.missingKey k)) ∧
      ((∀ a ∈ k :: s.keys r, s.Exact unitOf a) →
        ((s'.keys r).Pairwise fun a b => ¬s'.Equal a b ∧ ¬s'.Equal b a) ∧
        ∀ a, s.KeyFor r a → s.Exact unitOf a →
          (s'.Equal a k ↔ s.Equal a k) ∧ (s.Equal a k → s'.item (.dict r) a = .ok v) ∧
          (¬s.Equal a k → s'.item (.dict r) a = s.item (.dict r) a)) := by
  have hapart (a : Value) (ha : a ∈ s.keys r) := (hkeys a ha).apart
  refine ⟨s.setPair r k v, rfl, rfl, ?_, ?_, length_setPair_iff hr k v, fun hu => ?_⟩
  · exact item_setPair_self hr hapart hk.apart v (equal_refl hk.acyclic hk.floatless)
  · exact (keys_setPair_cases hr k v).imp_left fun ⟨hitem, _, h⟩ => ⟨hitem, h⟩
  · obtain ⟨hke, hexact⟩ := forall_mem_cons.1 hu
    refine ⟨pairwise_keys_setPair hr hapart hk.apart v hexact hke hdistinct, fun a ha hae => ?_⟩
    have hitem := item_setPair_of_exact hr hapart hk.apart v hexact hke ha.apart hae
    refine ⟨equal_setDict_iff _ ha.apart hk.apart, fun h => ?_, fun h => ?_⟩
    · exact hitem.trans (if_pos (hae.exchanges.1 k hke h))
    · exact hitem.trans (if_neg fun hka => h (hke.exchanges.1 a hae hka))

theorem not_inside_of_parts (hne : b ≠ a) (h : ∀ w, s.PartOf w a → ¬s.Inside b w) :
    ¬s.Inside b a := by
  intro hb
  rcases hb.cases_tail with heq | ⟨w, hw, hwa⟩
  · exact hne heq.symm
  · exact h w hwa hw

theorem KeyFor.of_parts (h : ∀ w, s.PartOf w v → s.KeyFor r w) (hfloat : v.isFloat = false)
    (hne : .dict r ≠ v) : s.KeyFor r v where
  acyclic := .of_parts fun w hw => (h w hw).acyclic
  floatless x := not_inside_of_parts (by rintro rfl; cases hfloat) fun w hw => (h w hw).floatless x
  apart := not_inside_of_parts hne fun w hw => (h w hw).apart

theorem KeyFor.of_stamp (h : v.stamp?.isSome = true) : s.KeyFor r v := by
  cases v with
  | float | tuple | list | dict | code => cases h
  | _ => exact .of_parts (by simp [PartOf, parts]) rfl (by simp)

def flagsAndLists : Store where
  lists := #[[.int 1], [.bool true]]
  dicts := #[[(.bool true, .str "a"), (.list ⟨0⟩, .str "b")]]

/-- The list `[True]` is set where `[1]` is a key.  The value is found under `[1]`, and under `1`
what was set for `True` is found as before. -/
theorem flagsAndLists_updated :
    ∃ s', flagsAndLists.setItem (.dict ⟨0⟩) (.list ⟨1⟩) (.str "c") = .ok s' ∧
      s'.keys ⟨0⟩ = [.bool true, .list ⟨0⟩] ∧
      s'.item (.dict ⟨0⟩) (.list ⟨0⟩) = .ok (.str "c") ∧
      s'.item (.dict ⟨0⟩) (.int 1) = .ok (.str "a") := by
  have hlist (i : Fin 2) : flagsAndLists.KeyFor ⟨0⟩ (.list ⟨i⟩) := by
    refine .of_parts ?_ rfl (by simp)
    fin_cases i <;> exact forall_mem_singleton.2 (.of_stamp rfl)
  have hexact (i : Fin 2) : flagsAndLists.Exact (fun _ => default) (.list ⟨i⟩) := by
    refine .of_parts ?_ rfl (by simp) (by simp)
    fin_cases i <;> exact forall_mem_singleton.2 (.of_stamp rfl)
  obtain ⟨s', hs', -, -, hkeys, -, hfound⟩ := setItem_updates_map flagsAndLists
    (fun _ => default) ⟨0⟩ (.list ⟨1⟩) (.str "c") (by decide)
    (forall_mem_cons.2 ⟨.of_stamp rfl, forall_mem_singleton.2 (hlist 0)⟩) (by decide)
    (hlist 1)
  obtain ⟨-, hfound⟩ := hfound (forall_mem_cons.2 ⟨hexact 1, forall_mem_cons.2
    ⟨.of_stamp rfl, forall_mem_singleton.2 (hexact 0)⟩⟩)
  refine ⟨s', hs', ?_, (hfound _ (hlist 0) (hexact 0)).2.1 (by decide), ?_⟩
  · rcases hkeys with ⟨hmissing, -⟩ | ⟨-, h⟩
    · have hitem : flagsAndLists.item (.dict ⟨0⟩) (.list ⟨1⟩) = .ok (.str "b") := rfl
      cases hitem.symm.trans hmissing
    · exact h
  · exact (hfound (.int 1) (.of_stamp rfl) (.of_stamp rfl)).2.2 (by decide)

def repeatedInside : Store where
  lists := #[[.int 0], [.int 0], [.int 5], [.int 6]]
  dicts := #[[(.dict ⟨1⟩, .str "old")], [(.list ⟨0⟩, .int 1), (.list ⟨1⟩, .int 1)],
    [(.list ⟨0⟩, .int 1), (.list ⟨2⟩, .int 1)], [(.list ⟨0⟩, .int 1), (.list ⟨3⟩, .int 1)]]

theorem repeatedInside_keyFor (i : Fin 3) : repeatedInside.KeyFor ⟨0⟩ (.dict ⟨i + 1⟩) := by
  have hlist (i : Fin 4) : repeatedInside.KeyFor ⟨0⟩ (.list ⟨i⟩) := by
    refine .of_parts ?_ rfl (by simp)
    fin_cases i <;> exact forall_mem_singleton.2 (.of_stamp rfl)
  have hint : repeatedInside.KeyFor ⟨0⟩ (.int 1) := .of_stamp rfl
  have hparts : ∀ w ∈ [Value.list ⟨0⟩, .int 1, .list ⟨i + 1⟩, .int 1],
      repeatedInside.KeyFor ⟨0⟩ w := by
    simpa [hint] using And.intro (hlist 0) (hlist i.succ)
  refine .of_parts ?_ rfl (by simp)
  fin_cases i <;> exact hparts

/-- A map has one key, `{[0]: 1, [0]: 1}`.  Setting `{[0]: 1, [5]: 1}` changes what is found under
`{[0]: 1, [6]: 1}`, although these two are not equal. -/
theorem repeatedInside_confused :
    repeatedInside.keys ⟨0⟩ = [.dict ⟨1⟩] ∧
      (∀ i : Fin 3, repeatedInside.KeyFor ⟨0⟩ (.dict ⟨i + 1⟩)) ∧
      ¬repeatedInside.Equal (.dict ⟨2⟩) (.dict ⟨3⟩) ∧
      ¬repeatedInside.Equal (.dict ⟨3⟩) (.dict ⟨2⟩) ∧
      repeatedInside.item (.dict ⟨0⟩) (.dict ⟨3⟩) = .ok (.str "old") ∧
      ∃ s', repeatedInside.setItem (.dict ⟨0⟩) (.dict ⟨2⟩) (.str "new") = .ok s' ∧
        s'.item (.dict ⟨0⟩) (.dict ⟨3⟩) = .ok (.str "new") := by
  refine ⟨rfl, repeatedInside_keyFor, ?_, ?_, rfl, _, rfl, rfl⟩
  · decide
  · decide

end Store

end Bytewright
