import Bytewright.Proofs.Scope.Resolve

/-!
# What resolving names does

The parameters are the available names that some load finds with no store before it, in the order of
their first loads.
-/

namespace Bytewright

open List

namespace Scope

/-- What becomes of an operation, which depends on the available names and on the stores of the
stream. -/
inductive ResolvesTo (available : List String) (ops : Stream) : Op → Op → Prop
  | store (x : String) : ResolvesTo available ops (.name .storeName x) (.name .storeFast x)
  | loadFast {x : String} (h : x ∈ available ∨ .name .storeName x ∈ ops) :
      ResolvesTo available ops (.name .loadName x) (.name .loadFast x)
  | loadGlobal {x : String} (h : ¬(x ∈ available ∨ .name .storeName x ∈ ops)) :
      ResolvesTo available ops (.name .loadName x) (.name .loadGlobal x)
  | deleteFast {x : String} (h : .name .storeName x ∈ ops) :
      ResolvesTo available ops (.name .deleteName x) (.name .deleteFast x)
  | deleteGlobal {x : String} (h : .name .storeName x ∉ ops) :
      ResolvesTo available ops (.name .deleteName x) (.name .deleteGlobal x)
  | other {op : Op} (h : op.isDynamicName = false) : ResolvesTo available ops op op

/-- Some load of the name has no store before it. -/
def Exposed (ops : Stream) (x : String) : Prop :=
  ∃ n : Nat, ops[n]? = some (.name .loadName x) ∧ ∀ k < n, ops[k]? ≠ some (.name .storeName x)

def loads (x : String) : Op → Bool
  | .name .loadName y => y == x
  | _ => false

def firstLoad (ops : Stream) (x : String) : Nat := ops.findIdx (loads x)

/-- All that resolving names does; it leaves nothing open. -/
structure Resolved (available : List String) (ops : Stream) (params : List String)
    (resolved : Stream) : Prop where
  places : List.Forall₂ (ResolvesTo available ops) ops resolved
  nodup : params.Nodup
  mem_iff : ∀ x, x ∈ params ↔ x ∈ available ∧ Exposed ops x
  ordered : params.Pairwise fun x y => firstLoad ops x < firstLoad ops y

/-! ### Operations -/

theorem resolvesTo_resolve (available : List String) (ops : Stream) (op : Op) :
    ResolvesTo available ops op (resolve available (stored ops) op) := by
  unfold resolve
  split
  · exact .store _
  · next x =>
    have hiff : (available.contains x || (stored ops).contains x) = true ↔
        x ∈ available ∨ .name .storeName x ∈ ops := by
      rw [Bool.or_eq_true, contains_iff_mem, contains_iff_mem, mem_stored]
    split_ifs with h
    · exact .loadFast (hiff.1 h)
    · exact .loadGlobal fun h' => h (hiff.2 h')
  · next x =>
    have hiff : (stored ops).contains x = true ↔ .name .storeName x ∈ ops := by
      rw [contains_iff_mem, mem_stored]
    split_ifs with h
    · exact .deleteFast (hiff.1 h)
    · exact .deleteGlobal fun h' => h (hiff.2 h')
  · next hstore hload hdelete =>
    refine .other ?_
    cases op with
    | name o x =>
      cases o with
      | storeName => exact absurd rfl (hstore x)
      | loadName => exact absurd rfl (hload x)
      | deleteName => exact absurd rfl (hdelete x)
      | _ => rfl
    | _ => rfl

variable {available : List String} {ops : Stream} {op op₁ op₂ : Op} {x : String}

theorem ResolvesTo.unique (h₁ : ResolvesTo available ops op op₁)
    (h₂ : ResolvesTo available ops op op₂) : op₁ = op₂ := by
  cases h₁ <;> cases h₂ <;> first | rfl | contradiction

theorem ResolvesTo.isDynamicName (h : ResolvesTo available ops op op₁) :
    op₁.isDynamicName = false := by
  cases h with
  | other h => exact h
  | _ => rfl

/-! ### Parameters -/

theorem not_exposed_nil (x : String) : ¬Exposed [] x := by
  rintro ⟨n, hn, -⟩
  cases hn

theorem exposed_cons_iff : Exposed (op :: ops) x ↔
    op = .name .loadName x ∨ op ≠ .name .storeName x ∧ Exposed ops x := by
  constructor
  · rintro ⟨n, hload, hstore⟩
    cases n with
    | zero => exact .inl (Option.some.inj hload)
    | succ n =>
      refine .inr ⟨fun hop => hstore 0 n.succ_pos (congrArg some hop), n, hload, fun k hk => ?_⟩
      exact hstore (k + 1) (Nat.succ_lt_succ hk)
  · rintro (rfl | ⟨hop, n, hload, hstore⟩)
    · exact ⟨0, rfl, fun k hk => absurd hk k.not_lt_zero⟩
    · refine ⟨n + 1, hload, fun k hk => ?_⟩
      cases k with
      | zero => exact fun h => hop (Option.some.inj h)
      | succ k => exact hstore k (Nat.lt_of_succ_lt_succ hk)

theorem mem_required_iff {settled : List String} : x ∈ required available settled ops ↔
    x ∈ available ∧ x ∉ settled ∧ Exposed ops x := by
  fun_induction required available settled ops with
  | case1 => simp [not_exposed_nil]
  | case2 settled y ops ih =>
    rw [ih, exposed_cons_iff, mem_cons]
    simp only [reduceCtorEq, Op.name.injEq, false_and, false_or, ne_eq, true_and, not_or]
    tauto
  | case3 settled y ops hy ih =>
    simp only [Bool.and_eq_true, contains_iff_mem, Bool.not_eq_true', ← Bool.not_eq_true] at hy
    rw [mem_cons, ih, exposed_cons_iff, mem_cons]
    simp only [reduceCtorEq, Op.name.injEq, false_and, ne_eq, true_and, not_or, not_false_eq_true]
    constructor
    · rintro (rfl | ⟨havailable, ⟨-, hsettled⟩, hexposed⟩)
      · exact ⟨hy.1, hy.2, .inl rfl⟩
      · exact ⟨havailable, hsettled, .inr hexposed⟩
    · rintro ⟨havailable, hsettled, rfl | hexposed⟩
      · exact .inl rfl
      · by_cases hx : x = y
        · exact .inl hx
        · exact .inr ⟨havailable, ⟨hx, hsettled⟩, hexposed⟩
  | case4 settled y ops hy ih =>
    simp only [Bool.and_eq_true, contains_iff_mem, Bool.not_eq_true', ← Bool.not_eq_true] at hy
    rw [ih, exposed_cons_iff]
    simp only [reduceCtorEq, Op.name.injEq, false_and, ne_eq, true_and, not_false_eq_true]
    constructor
    · rintro ⟨havailable, hsettled, hexposed⟩
      exact ⟨havailable, hsettled, .inr hexposed⟩
    · rintro ⟨havailable, hsettled, rfl | hexposed⟩
      · exact absurd ⟨havailable, hsettled⟩ hy
      · exact ⟨havailable, hsettled, hexposed⟩
  | case5 settled op ops hstore hload ih =>
    have hload' : op ≠ .name .loadName x := fun h => hload x h
    have hstore' : op ≠ .name .storeName x := fun h => hstore x h
    rw [ih, exposed_cons_iff]
    tauto

theorem loads_iff : loads x op = true ↔ op = .name .loadName x := by
  unfold loads
  split
  · next y => simp
  · next h =>
    refine ⟨nofun, fun hop => absurd hop ?_⟩
    exact h x

theorem firstLoad_cons_of_ne (h : op ≠ .name .loadName x) :
    firstLoad (op :: ops) x = firstLoad ops x + 1 := by
  rw [firstLoad, findIdx_cons, Bool.eq_false_iff.2 fun hloads => h (loads_iff.1 hloads)]
  rfl

theorem firstLoad_cons_self : firstLoad (.name .loadName x :: ops) x = 0 := by
  rw [firstLoad, findIdx_cons, loads_iff.2 rfl]
  rfl

theorem pairwise_firstLoad_cons {names : List String} (hop : ∀ x ∈ names, op ≠ .name .loadName x)
    (h : names.Pairwise fun x y => firstLoad ops x < firstLoad ops y) :
    names.Pairwise fun x y => firstLoad (op :: ops) x < firstLoad (op :: ops) y := by
  refine h.imp_of_mem fun hx hy hlt => ?_
  rw [firstLoad_cons_of_ne (hop _ hx), firstLoad_cons_of_ne (hop _ hy)]
  exact Nat.succ_lt_succ hlt

theorem pairwise_required (available settled : List String) (ops : Stream) :
    (required available settled ops).Pairwise fun x y => firstLoad ops x < firstLoad ops y := by
  fun_induction required available settled ops with
  | case1 => exact .nil
  | case2 settled y ops ih => exact pairwise_firstLoad_cons (fun x _ => by simp) ih
  | case3 settled y ops hy ih =>
    -- the others are not settled, so they are other names than this
    have hne : ∀ x ∈ required available (y :: settled) ops,
        Op.name .loadName y ≠ .name .loadName x := by
      rintro x hx ⟨⟩
      exact (mem_required_iff.1 hx).2.1 (mem_cons_self ..)
    refine pairwise_cons.2 ⟨fun x hx => ?_, pairwise_firstLoad_cons hne ih⟩
    rw [firstLoad_cons_self, firstLoad_cons_of_ne (hne x hx)]
    exact Nat.succ_pos _
  | case4 settled y ops hy ih =>
    refine pairwise_firstLoad_cons ?_ ih
    rintro x hx ⟨⟩
    obtain ⟨havailable, hsettled, -⟩ := mem_required_iff.1 hx
    exact hy (by simp [havailable, hsettled])
  | case5 settled op ops hstore hload ih => exact pairwise_firstLoad_cons (fun x _ => hload x) ih

/-! ### The whole stream -/

theorem resolved_resolveNames (available : List String) (ops : Stream) :
    Resolved available ops (resolveNames available ops).1 (resolveNames available ops).2 where
  places := forall₂_map_right_iff.2 (forall₂_same.2 fun op _ => resolvesTo_resolve _ _ op)
  nodup := (nodup_required available [] ops).1
  mem_iff x := by
    rw [resolveNames, mem_required_iff]
    simp
  ordered := pairwise_required available [] ops

theorem Resolved.unique {params params' : List String} {resolved resolved' : Stream}
    (h : Resolved available ops params resolved) (h' : Resolved available ops params' resolved') :
    params = params' ∧ resolved = resolved' := by
  constructor
  · have hperm : params.Perm params' := (perm_ext_iff_of_nodup h.nodup h'.nodup).2 fun x => by
      rw [h.mem_iff, h'.mem_iff]
    refine hperm.eq_of_pairwise (fun x y _ _ hlt hlt' => ?_) h.ordered h'.ordered
    exact absurd hlt' (Nat.lt_asymm hlt)
  · have hunique : Relator.RightUnique (ResolvesTo available ops) := fun _ _ _ => ResolvesTo.unique
    exact right_unique_forall₂' hunique h.places h'.places

end Scope

open Scope

theorem resolveNames_of_static {ops : Stream} (h : ∀ op ∈ ops, op.isDynamicName = false)
    (available : List String) : resolveNames available ops = ([], ops) := by
  have hresolved : Resolved available ops [] ops :=
    { places := forall₂_same.2 fun op hop => .other (h op hop)
      nodup := .nil
      mem_iff := by
        refine fun x => ⟨nofun, fun hx => ?_⟩
        obtain ⟨n, hload, -⟩ := hx.2
        cases h _ (mem_of_getElem? hload)
      ordered := .nil }
  obtain ⟨hparams, hops⟩ := (resolved_resolveNames available ops).unique hresolved
  exact Prod.ext hparams hops

/-- Resolving the names of a stream does what the description says: each operation on a dynamic name
becomes one on a fast local or on a global name, in its place, by the available names and the stores
of the whole stream, and the parameters are the available names that are exposed, once each, in the
order of their first loads.  Nothing else fits the description.  A second time nothing changes and
nothing is required, whatever is available. -/
theorem resolveNames_meets_specification (available : List String) (ops : Stream) :
    (∀ params resolved, resolveNames available ops = (params, resolved) ↔
      Resolved available ops params resolved) ∧
    (resolveNames available ops).2.length = ops.length ∧
    ∀ available', resolveNames available' (resolveNames available ops).2 =
      ([], (resolveNames available ops).2) := by
  have hresolved := resolved_resolveNames available ops
  refine ⟨fun params resolved => ⟨fun h => ?_, fun h => ?_⟩, hresolved.places.length_eq.symm,
    fun available' => ?_⟩
  · rwa [h] at hresolved
  · obtain ⟨hparams, hops⟩ := hresolved.unique h
    exact Prod.ext hparams hops
  · refine resolveNames_of_static (fun op hop => ?_) available'
    obtain ⟨op₀, -, hop₀⟩ := List.mem_map.1 hop
    exact hop₀ ▸ (resolvesTo_resolve available ops op₀).isDynamicName

/-- A name that is stored only later is a parameter and a fast local all the same, one that is
deleted and never stored is global, and a second load asks for nothing. -/
example : resolveNames ["a", "b"]
    [.name .loadName "b", .name .storeName "c", .name .loadName "a", .name .storeName "b",
     .name .loadName "b", .name .loadName "c", .name .deleteName "a", .name .loadName "d"] =
    (["b", "a"],
      [.name .loadFast "b", .name .storeFast "c", .name .loadFast "a", .name .storeFast "b",
       .name .loadFast "b", .name .loadFast "c", .name .deleteGlobal "a", .name .loadGlobal "d"]) :=
  rfl

end Bytewright
