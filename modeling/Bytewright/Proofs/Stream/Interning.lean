import Mathlib
import Bytewright.Stream.Assemble

/-!
# Interning

Interning what a pool holds at a place gives that place again, in every longer pool up to the final
one.
-/

namespace Bytewright

open List

/-! ### Constants -/

theorem Binary64.equals_self {x y : Binary64} (h : x.equals y = true) : x.equals x = true := by
  simp only [Binary64.equals, Bool.and_eq_true, Bool.not_eq_true'] at h
  simp [Binary64.equals, h.1.1]

mutual

theorem Const.agrees_self : ∀ {a b : Const}, a.agrees b = true → a.agrees a = true
  | .none, _, _ => rfl
  | .bool _, _, _ => beq_self_eq_true _
  | .int _, _, _ => beq_self_eq_true _
  | .str _, _, _ => beq_self_eq_true _
  | .float a, .float b, h => by
    simp only [Const.agrees] at h ⊢
    exact Binary64.equals_self h
  | .tuple a, .tuple b, h => by
    simp only [Const.agrees] at h ⊢
    exact agreeList_self h
  | .code a, .code b, h => by
    simp only [Const.agrees] at h ⊢
    exact agreeCode_self h

theorem agreeCode_self : ∀ {a b : CodeOf Const}, agreeCode a b = true → agreeCode a a = true
  | ⟨outline, consts⟩, ⟨outline', consts'⟩, h => by
    simp only [agreeCode, Bool.and_eq_true] at h ⊢
    exact ⟨beq_self_eq_true _, agreeList_self h.2⟩

theorem agreeList_self : ∀ {as bs : List Const}, agreeList as bs = true → agreeList as as = true
  | [], _, _ => rfl
  | a :: as, b :: bs, h => by
    simp only [agreeList, Bool.and_eq_true] at h ⊢
    exact ⟨Const.agrees_self h.1, agreeList_self h.2⟩

end

mutual

theorem Const.sameAs_self : ∀ {a b : Const}, a.sameAs b = true → a.sameAs a = true
  | .none, _, _ => rfl
  | .bool _, _, _ => beq_self_eq_true _
  | .int _, _, _ => beq_self_eq_true _
  | .float _, _, _ => beq_self_eq_true _
  | .str _, _, _ => beq_self_eq_true _
  | .tuple a, .tuple b, h => by
    simp only [Const.sameAs] at h ⊢
    exact sameList_self h
  | .code a, .code b, h => by
    simp only [Const.sameAs, CodeOf.agrees] at h ⊢
    exact agreeCode_self h

theorem sameList_self : ∀ {as bs : List Const}, sameList as bs = true → sameList as as = true
  | [], _, _ => rfl
  | a :: as, b :: bs, h => by
    simp only [sameList, Bool.and_eq_true] at h ⊢
    exact ⟨Const.sameAs_self h.1, sameList_self h.2⟩

end

namespace Assemble

variable {α : Type} {same : α → α → Bool} {pool pool' : List α} {x : α} {i : Nat}

/-! ### One pool -/

/-- The operand gets the first place that holds the same, and the pool grows at its end only. -/
structure Interned (same : α → α → Bool) (pool : List α) (x : α) (i : Nat) (y : α)
    (pool' : List α) : Prop where
  get_eq : pool'[i]? = some y
  first : ∀ j < i, ∀ z, pool'[j]? = some z → same z x = false
  found_or_added : (same y x = true ∧ pool' = pool) ∨
    (y = x ∧ i = pool.length ∧ pool' = pool ++ [x])

theorem Interned.lt_length {y : α} (h : Interned same pool x i y pool') : i < pool'.length :=
  (List.getElem?_eq_some_iff.1 h.get_eq).1

theorem Interned.le_length {y : α} (h : Interned same pool x i y pool') : i ≤ pool.length := by
  rcases h.found_or_added with ⟨-, rfl⟩ | ⟨-, rfl, -⟩
  · exact h.lt_length.le
  · exact le_rfl

theorem Interned.length_le {y : α} (h : Interned same pool x i y pool') :
    pool'.length ≤ pool.length + 1 := by
  rcases h.found_or_added with ⟨-, rfl⟩ | ⟨-, -, rfl⟩
  · exact Nat.le_succ _
  · rw [length_append, length_singleton]

theorem Interned.prefix_of {y : α} (h : Interned same pool x i y pool') : pool <+: pool' := by
  rcases h.found_or_added with ⟨-, rfl⟩ | ⟨-, -, rfl⟩
  · exact prefix_rfl
  · exact prefix_append _ _

theorem interned_intern (same : α → α → Bool) (pool : List α) (x : α) :
    ∃ i y, (intern same pool x).1 = UInt32.ofNat i ∧
      Interned same pool x i y (intern same pool x).2 := by
  unfold intern
  cases hfind : pool.findIdx? (same · x) with
  | some i =>
    obtain ⟨hlt, hsame, hfirst⟩ := findIdx?_eq_some_iff_getElem.1 hfind
    refine ⟨i, pool[i], rfl, ⟨getElem?_eq_getElem hlt, fun j hj z hz => ?_, .inl ⟨hsame, rfl⟩⟩⟩
    obtain ⟨hj', rfl⟩ := List.getElem?_eq_some_iff.1 hz
    simpa using hfirst j hj
  | none =>
    rw [List.findIdx?_eq_none_iff] at hfind
    refine ⟨pool.length, x, rfl, ⟨by simp, fun j hj z hz => ?_, .inr ⟨rfl, rfl, rfl⟩⟩⟩
    rw [getElem?_append_left hj] at hz
    exact hfind z (mem_of_getElem? hz)

theorem intern_eq_of_first {y : α} (hget : pool[i]? = some y) (hsame : same y x = true)
    (hfirst : ∀ j < i, ∀ z, pool[j]? = some z → same z x = false) :
    intern same pool x = (UInt32.ofNat i, pool) := by
  obtain ⟨hlt, hy⟩ := List.getElem?_eq_some_iff.1 hget
  have hfind : pool.findIdx? (same · x) = some i := by
    refine List.findIdx?_eq_some_iff_getElem.2 ⟨hlt, by rw [hy]; exact hsame, fun j hj => ?_⟩
    have hz := hfirst j hj _ (List.getElem?_eq_getElem (hj.trans hlt))
    simp [hz]
  simp only [intern, hfind]

theorem intern_eq_of_none (hnone : ∀ z ∈ pool, same z x = false) :
    intern same pool x = (UInt32.ofNat pool.length, pool ++ [x]) := by
  have hfind : pool.findIdx? (same · x) = none := findIdx?_eq_none_iff.2 hnone
  simp only [intern, hfind]

theorem Interned.none_of_added {y : α} (h : Interned same pool x pool.length y (pool ++ [x])) :
    ∀ z ∈ pool, same z x = false := by
  intro z hz
  obtain ⟨j, hj, rfl⟩ := mem_iff_getElem.1 hz
  exact h.first j hj _ (by rw [getElem?_append_left hj, getElem?_eq_getElem hj])

theorem Interned.pairwise {y : α} (h : Interned same pool x i y pool')
    (hpool : pool.Pairwise fun z w => same z w = false) :
    pool'.Pairwise fun z w => same z w = false := by
  rcases h.found_or_added with ⟨-, rfl⟩ | ⟨rfl, rfl, rfl⟩
  · exact hpool
  · refine pairwise_append.2 ⟨hpool, pairwise_singleton _ _, fun z hz w hw => ?_⟩
    rw [mem_singleton.1 hw]
    exact h.none_of_added z hz

theorem getElem?_mono {z : α} (hp : pool <+: pool') (hz : pool[i]? = some z) :
    pool'[i]? = some z := by
  obtain ⟨rest, rfl⟩ := hp
  have hlt := (List.getElem?_eq_some_iff.1 hz).1
  rw [List.getElem?_append_left hlt, hz]

theorem getElem?_restrict {z : α} (hp : pool <+: pool') (hi : i < pool.length)
    (hz : pool'[i]? = some z) : pool[i]? = some z := by
  obtain ⟨rest, rfl⟩ := hp
  rwa [getElem?_append_left hi] at hz

theorem Interned.again {y : α} {q final : List α} (h : Interned same pool x i y pool')
    (hp : pool <+: q) (hq : q <+: final) (hfinal : pool' <+: final)
    (hfirst : ∀ j < i, ∀ z, final[j]? = some z → same z y = false)
    (hself : i < q.length → same y y = true) :
    ∃ q', intern same q y = (UInt32.ofNat i, q') ∧ pool' <+: q' ∧ q' <+: final := by
  have hy : final[i]? = some y := getElem?_mono hfinal h.get_eq
  rcases Nat.lt_or_ge i q.length with hi | hi
  · -- the place is in the pool already
    have hqy : q[i]? = some y := getElem?_restrict hq hi hy
    refine ⟨q, ?_, ?_, hq⟩
    · exact intern_eq_of_first hqy (hself hi) fun j hj z hz =>
        hfirst j hj z (getElem?_mono hq hz)
    · refine prefix_of_prefix_length_le hfinal hq ?_
      rcases h.found_or_added with ⟨-, rfl⟩ | ⟨-, rfl, rfl⟩
      · exact hp.length_le
      · rw [length_append, length_singleton]
        exact hi
  · -- it is not, so nothing was added in between and it is added now
    have hle := h.le_length
    have hpq : pool = q := hp.eq_of_length (by have := hp.length_le; omega)
    subst hpq
    rcases h.found_or_added with ⟨-, rfl⟩ | ⟨rfl, rfl, rfl⟩
    · have hlt := h.lt_length
      omega
    · exact ⟨pool ++ [y], intern_eq_of_none h.none_of_added, prefix_rfl, hfinal⟩

theorem Interned.again_text {pool pool' q final : List String} {x y : String}
    (h : Interned (· == ·) pool x i y pool') (hp : pool <+: q) (hq : q <+: final)
    (hfinal : pool' <+: final) :
    y = x ∧ ∃ q', intern (· == ·) q x = (UInt32.ofNat i, q') ∧ pool' <+: q' ∧ q' <+: final := by
  have hyx : y = x := by
    rcases h.found_or_added with ⟨hsame, -⟩ | ⟨rfl, -, -⟩
    · exact eq_of_beq hsame
    · rfl
  subst hyx
  refine ⟨rfl, h.again hp hq hfinal (fun j hj z hz => ?_) fun _ => beq_self_eq_true y⟩
  exact h.first j hj z (getElem?_restrict hfinal (hj.trans h.lt_length) hz)

theorem Interned.again_const {pool pool' : List Const} {x y : Const}
    (h : Interned Const.sameAs pool x i y pool')
    (hpool : pool.Pairwise fun z w => z.sameAs w = false) :
    intern Const.sameAs pool y = (UInt32.ofNat i, pool') := by
  rcases h.found_or_added with ⟨hsame, rfl⟩ | ⟨rfl, rfl, rfl⟩
  · refine intern_eq_of_first h.get_eq (Const.sameAs_self hsame) fun j hj z hz => ?_
    obtain ⟨hj', rfl⟩ := List.getElem?_eq_some_iff.1 hz
    obtain ⟨hi', rfl⟩ := List.getElem?_eq_some_iff.1 h.get_eq
    exact List.pairwise_iff_getElem.1 hpool j i hj' hi' hj
  · exact intern_eq_of_none h.none_of_added

end Assemble

end Bytewright
