import Bytewright.Proofs.Equality.Depth
import Bytewright.Proofs.Stream.Sharing

/-!
# Equality is an equivalence

Maps are compared from one side only, but as no two keys of a map are equal, different pairs are
found at different places, and so all pairs of the second map are found too.
-/

namespace Bytewright

open List

/-! ### Stamps -/

/-- What a value is compared by if equality does not look into it. -/
inductive Stamp where
  | none
  | number (n : Int64)
  | text (t : String)
  | space (cell : ScopeRef)
  | function (id : Nat)
  | builtin (b : Builtin)
  | exceptionType (kind : String)
  | exception (id : Nat)
  | traceback (id : Nat)
  | iterator (cell : IterRef)
  | hook (id : Nat)
  | method (id : Nat)
deriving DecidableEq

namespace Value

def stamp? : Value → Option Stamp
  | .none => some .none
  | .bool b => some (.number (if b then 1 else 0))
  | .int n => some (.number n)
  | .str t => some (.text t)
  | .space r => some (.space r)
  | .function f => some (.function f.id)
  | .builtin b => some (.builtin b)
  | .exceptionType kind => some (.exceptionType kind)
  | .exception e => some (.exception e.id)
  | .traceback id _ => some (.traceback id)
  | .iterator r => some (.iterator r)
  | .hook h => some (.hook h.id)
  | .method id _ _ => some (.method id)
  | .float _ | .tuple _ | .list _ | .dict _ | .code _ _ => Option.none

def isFloat : Value → Bool
  | .float _ => true
  | _ => false

theorem stamp_cases (v : Value) :
    v.isFloat = true ∨ (∃ k, v.stamp? = some k) ∨ (∃ xs, v = .tuple xs) ∨ (∃ r, v = .list r) ∨
      (∃ r, v = .dict r) ∨ ∃ i unit, v = .code i unit := by
  cases v <;> simp [stamp?, isFloat]

end Value

namespace Store

variable {s t : Store} {inner : Value → Value → Bool} {a b c v w : Value} {xs ys : List Value}
  {x y : Code} {as bs : List (Value × Value)} {R : Value → Value → Prop}

theorem equalsBy_of_stamp? (ha : a.stamp?.isSome = true) (hb : b.isFloat = false) :
    s.equalsBy inner a b = true ↔ a.stamp? = b.stamp? := by
  cases b with
  | float x => cases hb
  | _ =>
    cases a with
    | float | tuple | list | dict | code => cases ha
    | _ => simp [equalsBy, Value.sameNumber, Value.asInt?, Value.asFloat?, Value.stamp?]

/-! ### Equality part by part -/

/-- The values are equal, as the machine computes it. -/
def Equal (s : Store) (v w : Value) : Prop := s.equals v w = true

/-- What equality comes down to: the same stamp, or equal parts. -/
inductive Same (s : Store) : Value → Value → Prop
  | stamp {a b : Value} {k : Stamp} (ha : a.stamp? = some k) (hb : b.stamp? = some k) : Same s a b
  | tuple {xs ys : List Value} (h : List.Forall₂ s.Equal xs ys) : Same s (.tuple xs) (.tuple ys)
  | list {x y : ListRef} (h : x = y ∨ List.Forall₂ s.Equal (s.list x) (s.list y)) :
      Same s (.list x) (.list y)
  | dict {x y : DictRef} (hlength : (s.dict x).length = (s.dict y).length)
      (h : ∀ p ∈ s.dict x, ∃ q ∈ s.dict y, s.Equal p.1 q.1 ∧ s.Equal p.2 q.2) :
      Same s (.dict x) (.dict y)
  | code {i j : Nat} {x y : Code} (h : i = j ∨ x.agrees y = true) : Same s (.code i x) (.code j y)

theorem equalLists_iff : equalLists s.equals xs ys = true ↔ List.Forall₂ s.Equal xs ys := by
  induction xs generalizing ys with
  | nil => cases ys <;> simp [equalLists]
  | cons x xs ih => cases ys <;> simp [equalLists, ih, Equal]

theorem equalAllBy_iff (hxs : ∀ x ∈ xs, s.Acyclic x) :
    s.equalAllBy s.equals xs ys = true ↔ List.Forall₂ s.Equal xs ys := by
  induction xs generalizing ys with
  | nil => cases ys <;> simp [equalAllBy]
  | cons x xs ih =>
    cases ys with
    | nil => simp [equalAllBy]
    | cons y ys =>
      rw [equalAllBy, ← (hxs x mem_cons_self).equals_eq, Bool.and_eq_true,
        ih fun v hv => hxs v (mem_cons_of_mem _ hv), forall₂_cons]
      rfl

theorem equalMaps_iff :
    equalMaps s.equals as bs = true ↔
      as.length = bs.length ∧ ∀ p ∈ as, ∃ q ∈ bs, s.Equal p.1 q.1 ∧ s.Equal p.2 q.2 := by
  simp [equalMaps, Equal]

theorem equal_iff_same (ha : s.Acyclic a) (hfa : a.isFloat = false) (hfb : b.isFloat = false) :
    s.Equal a b ↔ s.Same a b := by
  rw [Equal, ha.equals_eq]
  constructor
  · intro h
    rcases a.stamp_cases with hfloat | ⟨k, hk⟩ | ⟨xs, rfl⟩ | ⟨r, rfl⟩ | ⟨r, rfl⟩ | ⟨i, unit, rfl⟩
    · exact absurd (hfa.symm.trans hfloat) Bool.noConfusion
    · exact .stamp hk ((equalsBy_of_stamp? (by rw [hk]; rfl) hfb).1 h ▸ hk)
    · cases b with
      | tuple ys => exact .tuple ((equalAllBy_iff fun x hx => ha.part hx).1 h)
      | _ => cases h
    · cases b with
      | list y =>
        rw [equalsBy, Bool.or_eq_true, beq_iff_eq, equalLists_iff] at h
        exact .list h
      | _ => cases h
    · cases b with
      | dict y =>
        obtain ⟨hlength, hpairs⟩ := equalMaps_iff.1 h
        exact .dict hlength hpairs
      | _ => cases h
    · cases b with
      | code j unit' =>
        rw [equalsBy, Bool.or_eq_true, beq_iff_eq] at h
        exact .code h
      | _ => cases h
  · intro h
    cases h with
    | stamp hk hk' => exact (equalsBy_of_stamp? (by rw [hk]; rfl) hfb).2 (hk.trans hk'.symm)
    | tuple h => exact (equalAllBy_iff fun x hx => ha.part hx).2 h
    | list h => rwa [equalsBy, Bool.or_eq_true, beq_iff_eq, equalLists_iff]
    | dict hlength h => exact equalMaps_iff.2 ⟨hlength, h⟩
    | code h => rwa [equalsBy, Bool.or_eq_true, beq_iff_eq]

/-! ### Values that are compared exactly -/

/-- The value contains neither itself nor a float, the keys of each map inside it are not equal to
each other, and an identity of code inside it is that of one unit. -/
structure Exact (s : Store) (unitOf : Nat → Code) (v : Value) : Prop where
  acyclic : s.Acyclic v
  floatless : ∀ x, ¬s.Inside (.float x) v
  distinct : ∀ r, s.Inside (.dict r) v → (s.dict r).Pairwise fun p q => ¬s.Equal p.1 q.1
  coherent : ∀ i unit, s.Inside (.code i unit) v → unit = unitOf i

variable {unitOf : Nat → Code}

theorem Exact.part (h : s.Exact unitOf v) (hw : s.PartOf w v) : s.Exact unitOf w where
  acyclic := h.acyclic.part hw
  floatless x hx := h.floatless x (hx.tail hw)
  distinct r hr := h.distinct r (hr.tail hw)
  coherent i unit hi := h.coherent i unit (hi.tail hw)

theorem isFloat_eq_of_floatless (h : ∀ x, ¬s.Inside (.float x) v) : v.isFloat = false := by
  cases v with
  | float x => exact (h x .refl).elim
  | _ => rfl

theorem Exact.isFloat_eq (h : s.Exact unitOf v) : v.isFloat = false :=
  isFloat_eq_of_floatless h.floatless

theorem Exact.equal_iff (ha : s.Exact unitOf a) (hb : s.Exact unitOf b) :
    s.Equal a b ↔ s.Same a b :=
  equal_iff_same ha.acyclic ha.isFloat_eq hb.isFloat_eq

theorem Exact.induction {motive : Value → Prop}
    (step : ∀ v, s.Exact unitOf v → (∀ w, s.PartOf w v → motive w) → motive v)
    (h : s.Exact unitOf v) : motive v := by
  refine Acyclic.induction (motive := fun v => s.Exact unitOf v → motive v) (fun v _ ih h => ?_) v
    h.acyclic h
  exact step v h fun w hw => ih w hw (h.part hw)

theorem equal_refl (h : s.Acyclic v) (hfloatless : ∀ x, ¬s.Inside (.float x) v) : s.Equal v v := by
  refine Acyclic.induction (motive := fun v => (∀ x, ¬s.Inside (.float x) v) → s.Equal v v)
    (fun v h ih hfloatless => ?_) v h hfloatless
  have hfloat := isFloat_eq_of_floatless hfloatless
  have hpart (w : Value) (hw : s.PartOf w v) := ih w hw fun x hx => hfloatless x (hx.tail hw)
  refine (equal_iff_same h hfloat hfloat).2 ?_
  rcases v.stamp_cases with hv | ⟨k, hk⟩ | ⟨xs, rfl⟩ | ⟨r, rfl⟩ | ⟨r, rfl⟩ | ⟨i, unit, rfl⟩
  · exact absurd (hfloat.symm.trans hv) Bool.noConfusion
  · exact .stamp hk hk
  · exact .tuple (forall₂_same.2 hpart)
  · exact .list (.inl rfl)
  · exact .dict rfl fun p hp => ⟨p, hp, hpart _ (key_partOf hp), hpart _ (value_partOf hp)⟩
  · exact .code (.inl rfl)

theorem Exact.refl (h : s.Exact unitOf v) : s.Equal v v := equal_refl h.acyclic h.floatless

/-! ### From one side to the other -/

theorem exists_left_of_forall_exists {α β : Type} {R : α → β → Prop} {as : List α} {bs : List β}
    (hlength : as.length = bs.length) (h : ∀ a ∈ as, ∃ b ∈ bs, R a b)
    (hapart : as.Pairwise fun a a' => ∀ b ∈ bs, R a b → ¬R a' b) : ∀ b ∈ bs, ∃ a ∈ as, R a b := by
  have hchoice (i : Fin as.length) : ∃ j : Fin bs.length, R (as.get i) (bs.get j) := by
    obtain ⟨b, hb, hR⟩ := h _ (as.get_mem i)
    obtain ⟨j, rfl⟩ := mem_iff_get.1 hb
    exact ⟨j, hR⟩
  choose place hplace using hchoice
  have hne {i j : Fin as.length} (hij : i < j) : place i ≠ place j := fun heq =>
    pairwise_iff_get.1 hapart i j hij _ (bs.get_mem _) (hplace i) (heq ▸ hplace j)
  have hinjective : Function.Injective place := by
    intro i j heq
    rcases lt_trichotomy i j with hij | rfl | hji
    · exact absurd heq (hne hij)
    · rfl
    · exact absurd heq.symm (hne hji)
  have hsurjective := (Finite.injective_iff_surjective_of_equiv (finCongr hlength)).1 hinjective
  intro b hb
  obtain ⟨j, rfl⟩ := mem_iff_get.1 hb
  obtain ⟨i, rfl⟩ := hsurjective j
  exact ⟨_, as.get_mem i, hplace i⟩

theorem forall₂_symm_of_mem (hsymm : ∀ x ∈ xs, ∀ y ∈ ys, R x y → R y x) (h : List.Forall₂ R xs ys) :
    List.Forall₂ R ys xs := by
  induction h with
  | nil => exact .nil
  | cons hxy _ ih =>
    refine .cons (hsymm _ mem_cons_self _ mem_cons_self hxy) (ih fun x hx y hy => ?_)
    exact hsymm x (mem_cons_of_mem _ hx) y (mem_cons_of_mem _ hy)

theorem forall₂_trans_of_mem {zs : List Value}
    (htrans : ∀ x ∈ xs, ∀ y ∈ ys, ∀ z ∈ zs, R x y → R y z → R x z) (h : List.Forall₂ R xs ys)
    (h' : List.Forall₂ R ys zs) : List.Forall₂ R xs zs := by
  induction h generalizing zs with
  | nil => exact h'
  | cons hxy _ ih =>
    cases h' with
    | cons hyz h' =>
      refine .cons (htrans _ mem_cons_self _ mem_cons_self _ mem_cons_self hxy hyz)
        (ih (fun x hx y hy z hz => ?_) h')
      exact htrans x (mem_cons_of_mem _ hx) y (mem_cons_of_mem _ hy) z
        (mem_cons_of_mem _ hz)

theorem agrees_iff :
    x.agrees y = true ↔ Const.unsignedZeros (.code x) = Const.unsignedZeros (.code y) ∧
      Const.numeric (.code x) = true := by
  rw [← Const.agrees_iff, Const.agrees, CodeOf.agrees]

theorem agrees_symm (h : x.agrees y = true) : y.agrees x = true := by
  obtain ⟨hzeros, hnumeric⟩ := agrees_iff.1 h
  refine agrees_iff.2 ⟨hzeros.symm, ?_⟩
  rw [← Const.numeric_unsignedZeros, ← hzeros, Const.numeric_unsignedZeros, hnumeric]

theorem agrees_trans {z : Code} (h : x.agrees y = true) (h' : y.agrees z = true) :
    x.agrees z = true :=
  agrees_iff.2 ⟨(agrees_iff.1 h).1.trans (agrees_iff.1 h').1, (agrees_iff.1 h).2⟩

/-! ### Symmetry and transitivity -/

/-- Equality with `a` can be turned round and goes on to what is equal to its equals. -/
def Exchanges (s : Store) (unitOf : Nat → Code) (a : Value) : Prop :=
  (∀ b, s.Exact unitOf b → s.Equal a b → s.Equal b a) ∧
    ∀ b c, s.Exact unitOf b → s.Exact unitOf c → s.Equal a b → s.Equal b c → s.Equal a c

theorem Same.symm (ih : ∀ w, s.PartOf w a → s.Exchanges unitOf w) (ha : s.Exact unitOf a)
    (hb : s.Exact unitOf b) (h : s.Same a b) : s.Same b a := by
  cases h with
  | stamp hk hk' => exact .stamp hk' hk
  | tuple h => exact .tuple (forall₂_symm_of_mem (fun x hx y hy => (ih x hx).1 y (hb.part hy)) h)
  | list h =>
    refine .list (h.imp Eq.symm (forall₂_symm_of_mem fun x hx y hy => ?_))
    exact (ih x hx).1 y (hb.part hy)
  | @dict x y hlength h =>
    have hkey {q : Value × Value} (hq : q ∈ s.dict y) := hb.part (key_partOf hq)
    have hvalue {q : Value × Value} (hq : q ∈ s.dict y) := hb.part (value_partOf hq)
    -- two keys found at one place would be equal
    have hapart : (s.dict x).Pairwise fun p p' => ∀ q ∈ s.dict y,
        (s.Equal p.1 q.1 ∧ s.Equal p.2 q.2) → ¬(s.Equal p'.1 q.1 ∧ s.Equal p'.2 q.2) := by
      refine (ha.distinct x .refl).imp_of_mem fun {p p'} hp hp' hne q hq hfound hfound' => hne ?_
      have hback := (ih _ (key_partOf hp')).1 _ (hkey hq) hfound'.1
      exact (ih _ (key_partOf hp)).2 _ _ (hkey hq) (ha.part (key_partOf hp')) hfound.1 hback
    refine .dict hlength.symm fun q hq => ?_
    obtain ⟨p, hp, hfound⟩ := exists_left_of_forall_exists hlength h hapart q hq
    exact ⟨p, hp, (ih _ (key_partOf hp)).1 _ (hkey hq) hfound.1,
      (ih _ (value_partOf hp)).1 _ (hvalue hq) hfound.2⟩
  | code h => exact .code (h.imp Eq.symm agrees_symm)

theorem Same.trans (ih : ∀ w, s.PartOf w a → s.Exchanges unitOf w) (ha : s.Exact unitOf a)
    (hb : s.Exact unitOf b) (hc : s.Exact unitOf c) (h : s.Same a b) (h' : s.Same b c) :
    s.Same a c := by
  cases h with
  | stamp hk hk' =>
    cases h' with
    | stamp hl hl' => exact .stamp hk (hl'.trans (hl.symm.trans hk'))
    | tuple | list | dict | code => cases hk'
  | tuple h =>
    cases h' with
    | stamp hl => cases hl
    | tuple h' =>
      refine .tuple (forall₂_trans_of_mem (fun x hx y hy z hz => ?_) h h')
      exact (ih x hx).2 y z (hb.part hy) (hc.part hz)
  | list h =>
    cases h' with
    | stamp hl => cases hl
    | list h' =>
      rcases h with rfl | h
      · exact .list h'
      · rcases h' with rfl | h'
        · exact .list (.inr h)
        · refine .list (.inr (forall₂_trans_of_mem (fun x hx y hy z hz => ?_) h h'))
          exact (ih x hx).2 y z (hb.part hy) (hc.part hz)
  | dict hlength h =>
    cases h' with
    | stamp hl => cases hl
    | dict hlength' h' =>
      refine .dict (hlength.trans hlength') fun p hp => ?_
      obtain ⟨q, hq, hkey, hvalue⟩ := h p hp
      obtain ⟨r, hr, hkey', hvalue'⟩ := h' q hq
      exact ⟨r, hr,
        (ih _ (key_partOf hp)).2 _ _ (hb.part (key_partOf hq)) (hc.part (key_partOf hr)) hkey hkey',
        (ih _ (value_partOf hp)).2 _ _ (hb.part (value_partOf hq)) (hc.part (value_partOf hr))
          hvalue hvalue'⟩
  | @code i j x y h =>
    cases h' with
    | stamp hl => cases hl
    | @code _ k _ z h' =>
      -- one identity is that of one unit
      obtain rfl := ha.coherent i x .refl
      obtain rfl := hb.coherent j y .refl
      obtain rfl := hc.coherent k z .refl
      rcases h with rfl | h
      · exact .code h'
      · rcases h' with rfl | h'
        · exact .code (.inr h)
        · exact .code (.inr (agrees_trans h h'))

theorem Exact.exchanges (h : s.Exact unitOf a) : s.Exchanges unitOf a := by
  refine h.induction fun a ha ih => ⟨fun b hb hab => ?_, fun b c hb hc hab hbc => ?_⟩
  · exact (hb.equal_iff ha).2 (((ha.equal_iff hb).1 hab).symm ih ha hb)
  · exact (ha.equal_iff hc).2
      (((ha.equal_iff hb).1 hab).trans ih ha hb hc ((hb.equal_iff hc).1 hbc))

/-! ### The order of the pairs -/

theorem equalMaps_perm {as' bs' : List (Value × Value)} (has : as.Perm as') (hbs : bs.Perm bs') :
    equalMaps inner as bs = equalMaps inner as' bs' := by
  simp only [equalMaps, has.length_eq, hbs.length_eq, has.all_eq, hbs.any_eq]

/-- The maps of `t` are those of `s` in other orders. -/
structure Reordered (s t : Store) : Prop where
  lists_eq : t.lists = s.lists
  size_eq : t.dicts.size = s.dicts.size
  perm : ∀ r, (t.dict r).Perm (s.dict r)

theorem Reordered.equalsBy_eq (h : s.Reordered t) : t.equalsBy inner = s.equalsBy inner := by
  funext a b
  refine Alike.equalsBy_eq ⟨fun x y _ _ => ?_, fun x y _ _ => equalMaps_perm (h.perm x) (h.perm y)⟩
  rw [list, list, list, list, h.lists_eq]

theorem Reordered.equalsUpTo_eq (h : s.Reordered t) (n : Nat) :
    t.equalsUpTo n = s.equalsUpTo n := by
  induction n with
  | zero => exact h.equalsBy_eq
  | succ n ih => rw [equalsUpTo, equalsUpTo, ih, h.equalsBy_eq]

theorem Reordered.equals_eq (h : s.Reordered t) : t.equals = s.equals := by
  funext a b
  rw [equals, equals, pairsOfCells, pairsOfCells, h.lists_eq, h.size_eq, h.equalsUpTo_eq]

/-- Equality is an equivalence of values that do not contain themselves or floats and whose maps
have keys that are not equal to each other, `unitOf` being the units that identities of code stand
for.  It is equality of their parts, at every depth, and the order of the pairs of a map does not
matter to it, neither on one side nor on the other, nor anywhere inside the values. -/
theorem equals_is_equivalence (s : Store) (unitOf : Nat → Code) :
    Equivalence (fun a b : { v // s.Exact unitOf v } => s.equals a.1 b.1 = true) ∧
      (∀ a b, s.Acyclic a → s.equals a b = s.equalsBy s.equals a b) ∧
      (∀ x x' y y', (s.dict x).Perm (s.dict x') → (s.dict y).Perm (s.dict y') →
        s.equals (.dict x) (.dict y) = s.equals (.dict x') (.dict y')) ∧
      ∀ t, s.Reordered t → ∀ a b, t.equals a b = s.equals a b := by
  refine ⟨⟨fun a => a.2.refl, fun {a b} hab => a.2.exchanges.1 _ b.2 hab,
    fun {a b c} hab hbc => a.2.exchanges.2 _ _ b.2 c.2 hab hbc⟩, fun a b ha => ha.equals_eq b,
    fun x x' y y' hx hy => equalMaps_perm hx hy, fun t ht a b => ?_⟩
  rw [ht.equals_eq]

theorem Exact.of_parts (h : ∀ w, s.PartOf w v → s.Exact unitOf w) (hfloat : v.isFloat = false)
    (hdict : ∀ r, v = .dict r → (s.dict r).Pairwise fun p q => ¬s.Equal p.1 q.1)
    (hcode : ∀ i unit, v = .code i unit → unit = unitOf i) : s.Exact unitOf v where
  acyclic := .of_parts fun w hw => (h w hw).acyclic
  floatless x hx := by
    rcases hx.cases_tail with rfl | ⟨u, hu, huv⟩
    · cases hfloat
    · exact (h u huv).floatless x hu
  distinct r hr := by
    rcases hr.cases_tail with heq | ⟨u, hu, huv⟩
    · exact hdict r heq
    · exact (h u huv).distinct r hu
  coherent i unit hi := by
    rcases hi.cases_tail with heq | ⟨u, hu, huv⟩
    · exact hcode i unit heq
    · exact (h u huv).coherent i unit hu

theorem Exact.of_stamp (h : v.stamp?.isSome = true) : s.Exact unitOf v := by
  cases v with
  | float | tuple | list | dict | code => cases h
  | _ => exact .of_parts (by simp [PartOf, parts]) rfl (by simp) (by simp)

def swappedPairs : Store where
  lists := #[[.bool true], [.int 1]]
  dicts := #[[(.int 1, .list ⟨0⟩), (.str "k", .none)], [(.str "k", .none), (.bool true, .list ⟨1⟩)],
    [(.str "k", .none), (.int 1, .list ⟨0⟩)]]

theorem swappedPairs_exact (i : Fin 3) : swappedPairs.Exact (fun _ => default) (.dict ⟨i⟩) := by
  have hlist (i : Fin 2) : swappedPairs.Exact (fun _ => default) (.list ⟨i⟩) := by
    refine .of_parts ?_ rfl (by simp) (by simp)
    fin_cases i <;> exact forall_mem_singleton.2 (.of_stamp rfl)
  have hparts : ∀ w ∈ swappedPairs.parts (.dict ⟨i⟩),
      w.stamp?.isSome = true ∨ ∃ i : Fin 2, w = .list ⟨i⟩ := by
    fin_cases i <;> simp [parts, dict, swappedPairs, Value.stamp?, Fin.exists_fin_two]
  refine .of_parts (fun w hw => ?_) rfl ?_ (by simp)
  · rcases hparts w hw with hstamp | ⟨j, rfl⟩
    · exact .of_stamp hstamp
    · exact hlist j
  · rintro _ ⟨⟩
    fin_cases i <;> simp [dict, swappedPairs, Equal] <;> decide

/-- Two maps with the same pairs in different orders, one with the key `1` and one with `True`, are
equal both ways round.  So is a third one with the pairs of the first, ordered as the second. -/
theorem swappedPairs_equal :
    swappedPairs.equals (.dict ⟨0⟩) (.dict ⟨1⟩) = true ∧
      swappedPairs.equals (.dict ⟨1⟩) (.dict ⟨0⟩) = true ∧
      swappedPairs.equals (.dict ⟨2⟩) (.dict ⟨1⟩) = true := by
  obtain ⟨hequivalence, -, horder, -⟩ := equals_is_equivalence swappedPairs fun _ => default
  have hequal : swappedPairs.equals (.dict ⟨0⟩) (.dict ⟨1⟩) = true := by decide
  have hperm : (swappedPairs.dict ⟨0⟩).Perm (swappedPairs.dict ⟨2⟩) := .swap _ _ _
  refine ⟨hequal, ?_, ?_⟩
  · exact hequivalence.symm (x := ⟨_, swappedPairs_exact 0⟩) (y := ⟨_, swappedPairs_exact 1⟩) hequal
  · rw [← horder ⟨0⟩ ⟨2⟩ ⟨1⟩ ⟨1⟩ hperm (.refl _), hequal]

end Store

end Bytewright
