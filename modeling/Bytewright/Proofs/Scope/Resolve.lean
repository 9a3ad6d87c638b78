import Bytewright.Proofs.Depth.Laced
import Bytewright.Proofs.Shape.Code
import Bytewright.Proofs.Stream.Reassemble
import Bytewright.Stream.Scope

/-!
# Resolved operations

Resolving the names of a stream changes the opcodes of its names and nothing else, so the stream
keeps its labels, places, lines and depths.
-/

namespace Bytewright

open Assemble OfCode List

/-! ### Resolved operations -/

section Resolve

variable (available stored : List String)

theorem resolve_cases (op : Op) :
    Scope.resolve available stored op = op ∨
      ∃ o o' x, op = .name o x ∧ Scope.resolve available stored op = .name o' x ∧
        (Opcode.name o').effect 0 = (Opcode.name o).effect 0 ∧
        (Opcode.name o').leaves 0 = (Opcode.name o).leaves 0 ∧
        ∀ taken, (Opcode.name o').Finds 0 taken := by
  unfold Scope.resolve
  split
  case h_4 => exact .inl rfl
  all_goals try split
  all_goals exact .inr ⟨_, _, _, rfl, rfl, rfl, rfl, fun _ => trivial⟩

theorem comp_resolve {α : Type} {f : Op → α} (hf : ∀ o o' x, f (.name o x) = f (.name o' x)) :
    f ∘ Scope.resolve available stored = f := by
  funext op
  rw [Function.comp_apply]
  rcases resolve_cases available stored op with heq | ⟨o, o', x, rfl, heq, -⟩
  · rw [heq]
  · rw [heq, hf o' o x]

theorem isReal_resolve (op : Op) : (Scope.resolve available stored op).isReal = op.isReal :=
  congrFun (comp_resolve available stored (f := Op.isReal) fun _ _ _ => rfl) op

variable (ops : Stream)

theorem reals_map_resolve :
    reals (ops.map (Scope.resolve available stored)) =
      (reals ops).map (Scope.resolve available stored) := by
  rw [reals, reals, filter_map, comp_resolve]
  exact fun _ _ _ => rfl

theorem marks_map_resolve : marks (ops.map (Scope.resolve available stored)) = marks ops := by
  rw [marks, marks, filterMap_map, comp_resolve]
  exact fun _ _ _ => rfl

theorem references_map_resolve :
    references (ops.map (Scope.resolve available stored)) = references ops := by
  rw [references, references, filterMap_map, comp_resolve]
  exact fun _ _ _ => rfl

theorem position?_map_resolve (l : Label) (index : Nat) :
    position? l index (ops.map (Scope.resolve available stored)) = position? l index ops := by
  induction ops generalizing index with
  | nil => rfl
  | cons op ops ih =>
    rw [map_cons]
    rcases op.marker_or_isReal with ⟨n, rfl⟩ | ⟨m, rfl⟩ | hreal
    · exact ih index
    · show (if m = l then some index else position? l index _) = if m = l then some index else _
      rw [ih]
    · rw [position?_cons_of_isReal hreal, position?_cons_of_isReal, ih]
      rwa [isReal_resolve]

theorem lineTable_map_resolve (index : Nat) (table : List (UInt32 × UInt32)) :
    lineTable index table (ops.map (Scope.resolve available stored)) =
      lineTable index table ops := by
  induction ops generalizing index table with
  | nil => rfl
  | cons op ops ih =>
    rw [map_cons]
    rcases resolve_cases available stored op with heq | ⟨o, o', x, rfl, heq, -⟩
    · rw [heq]
      cases op with
      | line n | mark l => exact ih index _
      | _ => exact ih (index + 1) _
    · rw [heq]
      exact ih (index + 1) _

end Resolve

/-! ### Names -/

variable {op : Op} {p' last : Pools} {arg : UInt32} {o : NameOp} {rest : Stream} {pool : NamePool}

namespace Scope

theorem stored_append (a b : Stream) : stored (a ++ b) = stored a ++ stored b :=
  filterMap_append

theorem stored_cons (op : Op) (ops : Stream) : stored (op :: ops) = stored [op] ++ stored ops :=
  stored_append [op] ops

theorem mem_stored {x : String} {ops : Stream} : x ∈ stored ops ↔ .name .storeName x ∈ ops := by
  rw [stored, mem_filterMap]
  constructor
  · rintro ⟨op, hop, heq⟩
    split at heq
    · cases heq
      exact hop
    · cases heq
  · exact fun h => ⟨_, h, rfl⟩

theorem stored_reals (ops : Stream) : stored (reals ops) = stored ops := by
  induction ops with
  | nil => rfl
  | cons op ops ih =>
    rw [stored_cons, ← ih, reals, filter_cons]
    split
    · exact stored_cons _ _
    · next hop =>
      cases op with
      | line | mark => rfl
      | _ => exact absurd rfl hop

theorem nodup_required (available settled : List String) (ops : Stream) :
    (required available settled ops).Nodup ∧
      ∀ x ∈ required available settled ops, x ∈ available ∧ x ∉ settled := by
  fun_induction required available settled ops with
  | case1 => simp
  | case2 settled x ops ih =>
    refine ⟨ih.1, fun y hy => ?_⟩
    obtain ⟨havailable, hsettled⟩ := ih.2 y hy
    exact ⟨havailable, fun h => hsettled (mem_cons_of_mem _ h)⟩
  | case3 settled x ops hx ih =>
    simp only [Bool.and_eq_true, contains_iff_mem, Bool.not_eq_true', ← Bool.not_eq_true] at hx
    refine ⟨nodup_cons.2 ⟨fun h => (ih.2 x h).2 (mem_cons_self ..), ih.1⟩,
      fun y hy => ?_⟩
    rcases mem_cons.1 hy with rfl | hy
    · exact hx
    · obtain ⟨havailable, hsettled⟩ := ih.2 y hy
      exact ⟨havailable, fun h => hsettled (mem_cons_of_mem _ h)⟩
  | case4 settled x ops hx ih | case5 settled op ops _ _ ih => exact ih

theorem mem_required_or_stored {available : List String} {x : String} (hx : x ∈ available)
    (settled : List String) (front back : Stream) :
    x ∈ settled ∨ x ∈ required available settled (front ++ .name .loadName x :: back) ∨
      x ∈ stored front := by
  induction front generalizing settled with
  | nil =>
    rw [nil_append, required]
    by_cases hsettled : x ∈ settled
    · exact .inl hsettled
    · rw [if_pos (by simp [hx, hsettled])]
      exact .inr (.inl (mem_cons_self ..))
  | cons op front ih =>
    rw [cons_append, stored_cons]
    -- a name that this operation settles is taken or stored here
    rw [required.eq_def]
    split
    · next heq => cases heq
    · next y ops heq =>
      cases heq
      rcases ih (y :: settled) with h | h | h
      · rcases mem_cons.1 h with rfl | h
        · exact .inr (.inr (mem_append_left _ (mem_stored.2 mem_cons_self)))
        · exact .inl h
      · exact .inr (.inl h)
      · exact .inr (.inr (mem_append_right _ h))
    · next y ops heq =>
      cases heq
      split
      · rcases ih (y :: settled) with h | h | h
        · rcases mem_cons.1 h with rfl | h
          · exact .inr (.inl (mem_cons_self ..))
          · exact .inl h
        · exact .inr (.inl (mem_cons_of_mem _ h))
        · exact .inr (.inr (mem_append_right _ h))
      · exact (ih settled).imp_right (.imp_right (mem_append_right _))
    · next heq =>
      cases heq
      exact (ih settled).imp_right (.imp_right (mem_append_right _))

theorem stored_of_ne (h : ∀ x, op ≠ .name .storeName x) : stored [op] = [] :=
  eq_nil_iff_forall_not_mem.2 fun x hx => h x (mem_singleton.1 (mem_stored.1 hx)).symm

theorem length_required_add_stored_le (available settled : List String) (ops : Stream) :
    (required available settled ops).length + (stored ops).length ≤ size ops := by
  fun_induction required available settled ops with
  | case1 => exact Nat.le_refl _
  | case2 settled x ops ih =>
    have hstored : stored (.name .storeName x :: ops) = x :: stored ops := rfl
    rw [hstored, size_cons_of_isReal rfl, length_cons]
    omega
  | case3 settled x ops hx ih =>
    have hstored : stored (.name .loadName x :: ops) = stored ops := rfl
    rw [hstored, size_cons_of_isReal rfl, length_cons]
    omega
  | case4 settled x ops hx ih =>
    have hstored : stored (.name .loadName x :: ops) = stored ops := rfl
    rw [hstored, size_cons_of_isReal rfl]
    omega
  | case5 settled op ops hstore _ ih =>
    have hle : size ops ≤ size (op :: ops) := by
      cases hreal : op.isReal with
      | false => rw [size_cons_of_not_isReal hreal]
      | true => rw [size_cons_of_isReal hreal]; omega
    rw [stored_cons, stored_of_ne fun x hx => hstore x hx, nil_append]
    omega

end Scope

/-! ### Interchangeable instructions -/

def Interchangeable (i i' : Instruction) : Prop :=
  i' = i ∨ ∃ o o', i.opcode = .name o ∧ i'.opcode = .name o' ∧
    (Opcode.name o').effect 0 = (Opcode.name o).effect 0

theorem effect_name (o : NameOp) (arg : UInt32) :
    (Opcode.name o).effect arg = (Opcode.name o).effect 0 := by
  cases o <;> rfl

namespace Depth

theorem flowFrom_name {i : Instruction} (h : i.opcode = .name o) (ip : Nat) (s : State)
    (blocks : List Int) : flowFrom ip i s blocks =
      ⟨s.depth - ((Opcode.name o).effect 0).1 + ((Opcode.name o).effect 0).2, none,
        some ⟨s.depth - ((Opcode.name o).effect 0).1 + ((Opcode.name o).effect 0).2, blocks⟩⟩ := by
  simp only [flowFrom, h, effect_name o i.arg]
  rfl

theorem flow_congr {i i' : Instruction} (h : Interchangeable i i') {ip : Nat} {s : State}
    {f : Flow} (hf : flow ip i s = .ok f) : flow ip i' s = .ok f := by
  rcases h with rfl | ⟨o, o', ho, ho', heffect⟩
  · exact hf
  · obtain ⟨blocks, hleave, hpops, rfl⟩ := flow_eq_ok_iff.1 hf
    refine flow_eq_ok_iff.2 ⟨blocks, ?_, ?_, ?_⟩
    · rw [ho, leave_eq_ok (by simp) (by simp)] at hleave
      rw [ho', leave_eq_ok (by simp) (by simp), hleave]
    · rw [ho, effect_name] at hpops
      rwa [ho', effect_name, heffect]
    · rw [flowFrom_name ho, flowFrom_name ho', heffect]

variable {code code' : List Instruction} {ip n : Nat} {i i' : Instruction} {place : Nat → Nat}
  {slack : Int}

theorem exists_interchangeable (h : List.Forall₂ Interchangeable code code')
    (hi : code[ip]? = some i) :
    ∃ i', code'[ip]? = some i' ∧ Interchangeable i i' := by
  obtain ⟨hlt, rfl⟩ := List.getElem?_eq_some_iff.1 hi
  have hlt' : ip < code'.length := h.length_eq ▸ hlt
  exact ⟨code'[ip], List.getElem?_eq_getElem hlt', h.get hlt hlt'⟩

theorem standsFor_of_interchangeable (h : Interchangeable i i') (hplace : place n = n)
    (hsucc : place (n + 1) = n + 1) (htarget : ∀ o target, i.opcode = .jump o →
      i.target n = some target → place target = target) : StandsFor place slack n i [] i' := by
  intro s f hf
  refine ⟨s.depth, .nil, f, f, hf, ?_, rfl, ?_⟩
  · simpa [hplace] using flow_congr h hf
  · rw [hplace]
    refine ((map_congr_left fun q hq => ?_).trans (map_id _)).symm
    obtain ⟨blocks, -, -, rfl⟩ := flow_eq_ok_iff.1 hf
    rcases mem_edges_flowFrom.1 hq with ⟨-, rfl⟩ | ⟨o, target, ho, ht, rfl⟩
    · simp [hsucc]
    · simp [htarget o target ho ht]

theorem laced_append {rest rest' : List Instruction} (h : List.Forall₂ Interchangeable code code')
    (hplace : ∀ k ≤ n + code.length, place k = k)
    (htarget : ∀ k (i : Instruction) o target, code[k]? = some i →
      i.opcode = .jump o → i.target (n + k) = some target → place target = target)
    (hrest : Laced place slack (n + code.length) rest rest') :
    Laced place slack n (code ++ rest) (code' ++ rest') := by
  induction h generalizing n with
  | nil => exact hrest
  | @cons i i' code code' hi _ ih =>
    rw [length_cons] at hplace hrest
    have hn := hplace n (by omega)
    have hsucc := hplace (n + 1) (by omega)
    refine .one (by rw [hn, hsucc])
      (standsFor_of_interchangeable hi hn hsucc fun o target => htarget 0 i o target rfl)
      (ih (fun k hk => hplace k (by omega)) (fun k i o target hk ho ht => ?_) ?_)
    · exact htarget (k + 1) i o target hk ho (by rwa [← Nat.add_assoc, Nat.add_right_comm])
    · rwa [Nat.add_right_comm]

theorem laced_id (h : List.Forall₂ Interchangeable code code') : Laced id 0 0 code code' := by
  have hlaced : Laced id 0 0 (code ++ []) (code' ++ []) :=
    laced_append h (fun _ _ => rfl) (fun _ _ _ _ _ _ _ => rfl) .nil
  rwa [append_nil, append_nil] at hlaced

end Depth

/-! ### Instructions of resolved operations -/

section Encode

variable (available written : List String)

theorem exists_resolve_name (o : NameOp) (x : String) :
    ∃ o', Scope.resolve available written (.name o x) = .name o' x ∧
      (Opcode.name o').effect 0 = (Opcode.name o).effect 0 := by
  rcases resolve_cases available written (.name o x) with heq | ⟨o, o', y, hname, heq, heffect, -⟩
  · exact ⟨o, heq, rfl⟩
  · cases hname
    exact ⟨o', heq, heffect⟩

variable {q : Pools}

theorem argument_resolve {ops : Stream} {index : Nat} {p : Pools} {opcode : Opcode}
    (hop : op.opcode = some opcode) (h : argument ops index p op = .ok (arg, p'))
    (hq : q.consts = p.consts) :
    ∃ opcode' arg' q', (Scope.resolve available written op).opcode = some opcode' ∧
      argument (ops.map (Scope.resolve available written)) index q
        (Scope.resolve available written op) = .ok (arg', q') ∧
      q'.consts = p'.consts ∧ Interchangeable ⟨opcode, arg⟩ ⟨opcode', arg'⟩ := by
  cases op with
  | line | mark => cases hop
  | name o x =>
    cases hop
    obtain ⟨o', heq, heffect⟩ := exists_resolve_name available written o x
    rw [argument, Pools.name_eq] at h
    cases h
    rw [heq]
    refine ⟨_, _, _, rfl, congrArg Except.ok (Pools.name_eq q o'.pool x), ?_,
      .inr ⟨o, o', rfl, rfl, heffect⟩⟩
    rw [Pools.consts_set, Pools.consts_set, hq]
  | const c =>
    cases hop
    rw [argument, Pools.const_eq] at h
    cases h
    refine ⟨_, _, _, rfl, congrArg Except.ok (Pools.const_eq q c), ?_, .inl ?_⟩
    · rw [hq]
    · rw [hq]
  | jump o l =>
    cases hop
    obtain ⟨hjump, rfl⟩ := argument_jump_eq_ok_iff.1 h
    refine ⟨_, arg, q, rfl, argument_jump_eq_ok_iff.2 ⟨?_, rfl⟩, hq, .inl rfl⟩
    rw [jumpArg, position?_map_resolve, ← jumpArg, hjump]
  | bare | count | arith | compare | call =>
    cases hop
    cases h
    exact ⟨_, _, _, rfl, rfl, hq, .inl rfl⟩

theorem exists_encode_resolve {ops : Stream} {index : Nat} {p : Pools} {code : List Instruction}
    (h : encode ops index p rest = .ok (code, last)) (hq : q.consts = p.consts) :
    ∃ code' last', encode (ops.map (Scope.resolve available written)) index q
        (rest.map (Scope.resolve available written)) = .ok (code', last') ∧
      last'.consts = last.consts ∧ List.Forall₂ Interchangeable code code' := by
  induction h using encode_induction generalizing q with
  | nil => exact ⟨[], q, rfl, hq, .nil⟩
  | @marker _ _ op _ _ _ hop _ ih =>
    have heq : Scope.resolve available written op = op := by
      cases op with
      | line | mark => rfl
      | _ => cases hop
    rw [map_cons, heq, encode_cons_of_marker hop]
    exact ih hq
  | real hop harg _ ih =>
    obtain ⟨opcode', arg', q', hop', harg', hq', hi⟩ :=
      argument_resolve available written hop harg hq
    obtain ⟨tail', last', htail', hlast, hcode⟩ := ih hq'
    exact ⟨_, last', (encode_cons_eq_ok_iff hop').2 ⟨arg', q', tail', harg', htail', rfl⟩, hlast,
      .cons hi hcode⟩

end Encode

variable {ops : Stream} {index : Nat} {p : Pools} {x : String}

theorem name_of_argument (h : argument ops index p (.name o x) = .ok (arg, p'))
    (hlast : p'.Upto last) (hlength : (last.get o.pool).length < 4294967296) :
    (last.get o.pool)[arg.toNat]? = some x := by
  rw [argument, Pools.name_eq] at h
  cases h
  obtain ⟨i, y, hi, hinterned⟩ := interned_intern (· == ·) (p.get o.pool) x
  obtain rfl : y = x := by
    rcases hinterned.found_or_added with ⟨hsame, -⟩ | ⟨rfl, -⟩
    · exact eq_of_beq hsame
    · rfl
  have hget := hinterned.get_eq
  rw [← Pools.get_set_self p o.pool (intern (· == ·) (p.get o.pool) y).2] at hget
  have hget' := getElem?_mono (hlast.names o.pool) hget
  have hlt := (List.getElem?_eq_some_iff.1 hget').1
  rw [hi, UInt32.toNat_ofNat_of_lt' (show i < 4294967296 by omega)]
  exact hget'

theorem mem_pool_of_argument (h : argument ops index p op = .ok (arg, p')) (hx : x ∈ p'.get pool) :
    x ∈ p.get pool ∨ ∃ o : NameOp, o.pool = pool ∧ op = .name o x := by
  cases op with
  | name o y =>
    rw [argument, Pools.name_eq] at h
    cases h
    by_cases hpool : pool = o.pool
    · subst hpool
      rw [Pools.get_set_self] at hx
      obtain ⟨i, z, -, hinterned⟩ := interned_intern (· == ·) (p.get o.pool) y
      rcases hinterned.found_or_added with ⟨-, heq⟩ | ⟨-, -, heq⟩
      · rw [heq] at hx
        exact .inl hx
      · rw [heq, mem_append, mem_singleton] at hx
        rcases hx with hx | rfl
        · exact .inl hx
        · exact .inr ⟨o, rfl, rfl⟩
    · rw [Pools.get_set_of_ne _ hpool] at hx
      exact .inl hx
  | const c =>
    rw [argument, Pools.const_eq] at h
    cases h
    rw [Pools.get_withConsts] at hx
    exact .inl hx
  | jump o l =>
    rw [(argument_jump_eq_ok_iff.1 h).2] at hx
    exact .inl hx
  | _ =>
    cases h
    exact .inl hx

theorem mem_pool_of_encode {code : List Instruction}
    (h : encode ops index p rest = .ok (code, last)) (hx : x ∈ last.get pool) :
    x ∈ p.get pool ∨ ∃ o : NameOp, o.pool = pool ∧ .name o x ∈ rest := by
  refine keeps_of_encode (P := fun q => x ∈ q.get pool →
    x ∈ p.get pool ∨ ∃ o : NameOp, o.pool = pool ∧ .name o x ∈ rest) ?_ h .inl hx
  intro op hop _ q _ q' harg hq hx
  rcases mem_pool_of_argument harg hx with hx | ⟨o, ho, rfl⟩
  · exact hq hx
  · exact .inr ⟨o, ho, hop⟩

end Bytewright
