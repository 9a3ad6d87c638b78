import Bytewright.Proofs.Shape.Piece
import Bytewright.Proofs.Stream.Decompile

/-!
# Shapes of places

What matters about a typed stream are its operations and the places of its labels.  So a piece stays
one when its labels are renamed and its operations are exchanged for others that do the same.
-/

namespace Bytewright

open Assemble List OfCode

/-! ### Places -/

theorem Op.marker_or_isReal (op : Op) :
    (∃ n, op = .line n) ∨ (∃ l, op = .mark l) ∨ op.isReal = true := by
  cases op with
  | line n => exact .inl ⟨n, rfl⟩
  | mark l => exact .inr (.inl ⟨l, rfl⟩)
  | _ => exact .inr (.inr rfl)

variable {op : Op} {loops : Bool} {l : Label} {s : Shape}

theorem reals_cons_of_isReal (h : op.isReal = true) (ops : Stream) :
    reals (op :: ops) = op :: reals ops := filter_cons_of_pos h

theorem length_reals (ops : Stream) : (reals ops).length = size ops :=
  countP_eq_length_filter.symm

theorem mem_references_reals {ops : Stream} : l ∈ references ops ↔ ∃ o, .jump o l ∈ reals ops := by
  rw [mem_references_iff]
  refine exists_congr fun o => ?_
  rw [reals, mem_filter]
  exact (and_iff_left rfl).symm

/-- The operations lead from the shapes of their places to the next ones. -/
structure Placed (shapes : Label → Shape) (bound : Nat) (place : Nat → Shape) (index : Nat)
    (ops : Stream) : Prop where
  depth_le : ∀ n ≤ size ops, (place (index + n)).depth ≤ bound
  step : ∀ n op opcode, (reals ops)[n]? = some op → op.opcode = some opcode →
    ∃ jump, Shape.Step opcode op.countArg (place (index + n)) jump (place (index + n + 1)) ∧
      ∀ o l, op = .jump o l → shapes l = jump
  mark : ∀ l p, position? l index ops = some p → place p = shapes l

variable {shapes : Label → Shape} {bound : Nat} {place : Nat → Shape} {index : Nat} {ops : Stream}

theorem Placed.cons {jump : Shape} {opcode : Opcode} (h : Placed shapes bound place (index + 1) ops)
    (hop : op.opcode = some opcode)
    (hstep : Shape.Step opcode op.countArg s jump (place (index + 1)))
    (hjump : ∀ o l, op = .jump o l → shapes l = jump) (hbound : s.depth ≤ bound) :
    Placed shapes bound (Function.update place index s) index (op :: ops) := by
  have hreal := isReal_of_opcode hop
  have hlater (n : Nat) : Function.update place index s (index + (n + 1)) =
      place (index + 1 + n) := by
    rw [Function.update_of_ne (by omega)]
    congr 1
    omega
  refine ⟨fun n hn => ?_, fun n op' opcode' hop' hopcode' => ?_, fun l p hp => ?_⟩
  · rw [size_cons_of_isReal hreal] at hn
    cases n with
    | zero =>
      rw [Nat.add_zero, Function.update_self]
      exact hbound
    | succ n =>
      rw [hlater]
      exact h.depth_le n (by omega)
  · rw [reals_cons_of_isReal hreal] at hop'
    cases n with
    | zero =>
      cases hop'
      rw [hop] at hopcode'
      cases hopcode'
      refine ⟨jump, ?_, hjump⟩
      have hnext : Function.update place index s (index + 1) = place (index + 1) := hlater 0
      rw [Nat.add_zero, Function.update_self, hnext]
      exact hstep
    | succ n =>
      rw [hlater, Nat.add_assoc index (n + 1) 1, hlater]
      exact h.step n op' opcode' hop' hopcode'
  · rw [position?_cons_of_isReal hreal] at hp
    obtain ⟨n, rfl⟩ := Nat.exists_eq_add_of_le (position?_bounds hp).1
    rw [Nat.add_right_comm, Nat.add_assoc, hlater]
    exact h.mark l _ hp

theorem Typed.exists_placed {t : Shape} (h : Typed shapes bound s ops t) (index : Nat) :
    ∃ place, place index = s ∧ place (index + size ops) = t ∧
      Placed shapes bound place index ops := by
  induction h generalizing index with
  | @nil s hbound =>
    refine ⟨fun _ => s, rfl, rfl, fun _ _ => hbound, fun n op opcode hop => ?_, fun l p hp => ?_⟩
    · cases hop
    · cases hp
  | line n _ ih =>
    obtain ⟨place, hs, ht, hplaced⟩ := ih index
    exact ⟨place, hs, ht, hplaced.depth_le, hplaced.step, hplaced.mark⟩
  | @mark s t ops l hl _ ih =>
    obtain ⟨place, hs, ht, hplaced⟩ := ih index
    refine ⟨place, hs, ht, hplaced.depth_le, hplaced.step, fun m p hp => ?_⟩
    rw [position?] at hp
    split_ifs at hp with hm
    · cases hp
      rw [hs, ← hm, hl]
    · exact hplaced.mark m p hp
  | @real s jump next t op opcode ops hop hstep hjump hbound _ ih =>
    obtain ⟨place, hs, ht, hplaced⟩ := ih (index + 1)
    have hreal := isReal_of_opcode hop
    refine ⟨Function.update place index s, Function.update_self .., ?_,
      hplaced.cons hop (by rwa [hs]) hjump hbound⟩
    rw [size_cons_of_isReal hreal, Function.update_of_ne (by omega), ← ht]
    congr 1
    omega

theorem Placed.of_cons_mark (h : Placed shapes bound place index (.mark l :: ops))
    (hl : l ∉ marks ops) : Placed shapes bound place index ops where
  depth_le := h.depth_le
  step := h.step
  mark m p hp := by
    refine h.mark m p ?_
    have hm : m ∈ marks ops := isSome_position?_iff.1 (by rw [hp]; rfl)
    have hlm : l ≠ m := fun hlm => hl (hlm ▸ hm)
    rw [position?, if_neg hlm]
    exact hp

theorem Placed.of_cons_real (h : Placed shapes bound place index (op :: ops))
    (hreal : op.isReal = true) : Placed shapes bound place (index + 1) ops where
  depth_le n hn := by
    have := h.depth_le (n + 1) (by rw [size_cons_of_isReal hreal]; omega)
    rwa [Nat.add_right_comm]
  step n op' opcode' hop' hopcode' := by
    have := h.step (n + 1) op' opcode' (by rw [reals_cons_of_isReal hreal]; exact hop') hopcode'
    rwa [Nat.add_right_comm index 1 n]
  mark l p hp := h.mark l p (by rwa [position?_cons_of_isReal hreal])

theorem Placed.typed (h : Placed shapes bound place index ops) (hnodup : (marks ops).Nodup) :
    Typed shapes bound (place index) ops (place (index + size ops)) := by
  induction ops generalizing index with
  | nil => exact .nil (h.depth_le 0 le_rfl)
  | cons op ops ih =>
    rcases op.marker_or_isReal with ⟨n, rfl⟩ | ⟨l, rfl⟩ | hreal
    · exact .line n (ih ⟨h.depth_le, h.step, h.mark⟩ hnodup)
    · rw [marks_cons_mark, nodup_cons] at hnodup
      refine .mark ?_ (ih (h.of_cons_mark hnodup.1) hnodup.2)
      exact (h.mark l index (by rw [position?, if_pos rfl])).symm
    · rw [marks_cons_of_isReal hreal] at hnodup
      obtain ⟨opcode, hop⟩ : ∃ opcode, op.opcode = some opcode := by
        rwa [isReal_eq_isSome_opcode, Option.isSome_iff_exists] at hreal
      obtain ⟨jump, hstep, hjump⟩ := h.step 0 op opcode
        (by rw [reals_cons_of_isReal hreal]; rfl) hop
      have hrest := ih (h.of_cons_real hreal) hnodup
      rw [Nat.add_assoc, Nat.add_comm 1 (size ops), ← size_cons_of_isReal hreal] at hrest
      exact .real hop hstep hjump (h.depth_le 0 (Nat.zero_le _)) hrest

/-! ### Jumps forward -/

theorem forward_cons_iff (hop : ∀ o l, op ≠ .jump o l) :
    Forward loops (op :: ops) ↔ Forward loops ops :=
  ⟨fun h => h.2, fun h => h.cons_of_ne hop⟩

theorem forward_iff (index : Nat) (hnodup : (marks ops).Nodup) :
    Forward loops ops ↔ ∀ n o l, (reals ops)[n]? = some (.jump o l) →
      loops = false ∨ o.isRelative = true →
      ∃ p, position? l index ops = some p ∧ index + n < p := by
  induction ops generalizing index with
  | nil => simp [Forward, reals]
  | cons op ops ih =>
    rcases op.marker_or_isReal with ⟨k, rfl⟩ | ⟨m, rfl⟩ | hreal
    · exact (forward_cons_iff (by simp)).trans (ih index hnodup)
    · rw [marks_cons_mark, nodup_cons] at hnodup
      rw [forward_cons_iff (by simp), ih index hnodup.2]
      refine forall₃_congr fun n o l => imp_congr_right fun _ => imp_congr_right fun _ => ?_
      refine exists_congr fun p => and_congr_left fun hp => ?_
      -- a label marked here has its only mark here, which is no place beyond
      rw [position?]
      by_cases hml : m = l
      · rw [if_pos hml, position?_eq_none_of_notMem (hml ▸ hnodup.1)]
        simp only [reduceCtorEq, Option.some.injEq, false_iff]
        omega
      · rw [if_neg hml]
    · rw [marks_cons_of_isReal hreal] at hnodup
      rw [Forward, ih (index + 1) hnodup, reals_cons_of_isReal hreal]
      simp only [position?_cons_of_isReal hreal]
      constructor
      · rintro ⟨hfirst, hrest⟩ n o l hop hforward
        cases n with
        | zero =>
          cases hop
          obtain ⟨p, hp⟩ := Option.isSome_iff_exists.1
            (isSome_position?_iff.2 (hfirst o l rfl hforward))
          exact ⟨p, hp, (position?_bounds hp).1⟩
        | succ n =>
          obtain ⟨p, hp, hlt⟩ := hrest n o l hop hforward
          exact ⟨p, hp, by omega⟩
      · intro h
        refine ⟨fun o l hop hforward => ?_, fun n o l hop hforward => ?_⟩
        · obtain ⟨p, hp, -⟩ := h 0 o l (by rw [hop]; rfl) hforward
          exact isSome_position?_iff.1 (by rw [hp]; rfl)
        · obtain ⟨p, hp, hlt⟩ := h (n + 1) o l hop hforward
          exact ⟨p, hp, by omega⟩

/-! ### Operations that do the same -/

structure Op.Alike (rename : Label → Label) (op op' : Op) : Prop where
  jump : ∀ o l, op = .jump o l → op' = .jump o (rename l)
  eq_jump : ∀ o l', op' = .jump o l' → ∃ l, op = .jump o l
  step : ∀ opcode', op'.opcode = some opcode' → ∃ opcode, op.opcode = some opcode ∧
    ∀ s j t, Shape.Step opcode op.countArg s j t → Shape.Step opcode' op'.countArg s j t

theorem getElem?_of_forall₂ {α β : Type} {R : α → β → Prop} {xs : List α} {ys : List β}
    (h : List.Forall₂ R xs ys) {n : Nat} {y : β} (hy : ys[n]? = some y) :
    ∃ x, xs[n]? = some x ∧ R x y := by
  obtain ⟨hlt, rfl⟩ := List.getElem?_eq_some_iff.1 hy
  have hlt' : n < xs.length := h.length_eq ▸ hlt
  exact ⟨xs[n], getElem?_eq_getElem hlt', h.get hlt' hlt⟩

theorem Piece.alike {first next first' next' : Nat} {ins outs : List Kind} {a b : Stream}
    {rename : Label → Label} (h : Piece loops first next ins outs a)
    (hops : List.Forall₂ (Op.Alike rename) (reals a) (reals b))
    (hplaces : ∀ l ∈ references a, position? (rename l) 0 b = position? l 0 a)
    (hle : first' ≤ next') (hrange : ∀ l ∈ marks b, first' ≤ l.id ∧ l.id < next')
    (hnodup : (marks b).Nodup) (hmarks : ∀ l ∈ marks b, l ∈ references b) :
    Piece loops first' next' ins outs b := by
  have hsize : size b = size a := by rw [← length_reals, ← length_reals, hops.length_eq]
  -- every jump comes from a jump, whose label has a place
  have hjump {n : Nat} {o : JumpOp} {l' : Label} (hl' : (reals b)[n]? = some (.jump o l')) :
      ∃ l p, (reals a)[n]? = some (.jump o l) ∧ l' = rename l ∧ position? l 0 a = some p ∧
        position? l' 0 b = some p := by
    obtain ⟨op, hop, halike⟩ := getElem?_of_forall₂ hops hl'
    obtain ⟨l, rfl⟩ := halike.eq_jump o l' rfl
    have hrename := halike.jump o l rfl
    cases hrename
    have hl : l ∈ references a := mem_references_reals.2 ⟨o, mem_of_getElem? hop⟩
    obtain ⟨p, hp⟩ := Option.isSome_iff_exists.1 (isSome_position?_iff.2 ((h.marked l).2 hl))
    exact ⟨l, p, hop, rfl, hp, (hplaces l hl).trans hp⟩
  refine ⟨⟨hle, hrange, hnodup, fun l => ⟨hmarks l, fun hl => ?_⟩, ?_⟩,
    by rw [hsize]; exact h.growth, fun shapes top under bound hbound => ?_⟩
  · obtain ⟨o, ho⟩ := mem_references_reals.1 hl
    obtain ⟨n, hn⟩ := mem_iff_getElem?.1 ho
    obtain ⟨-, p, -, -, -, hp⟩ := hjump hn
    exact isSome_position?_iff.1 (by rw [hp]; rfl)
  · refine (forward_iff 0 hnodup).2 fun n o l' hl' hforward => ?_
    obtain ⟨l, p, hl, -, hp, hp'⟩ := hjump hl'
    obtain ⟨q, hq, hlt⟩ := (forward_iff 0 h.nodup).1 h.forward n o l hl hforward
    rw [hp, Option.some.injEq] at hq
    exact ⟨p, hp', hq ▸ hlt⟩
  · rw [hsize] at hbound
    obtain ⟨own, -, htyped⟩ := h.typed shapes top under bound hbound
    obtain ⟨place, hs, ht, hplaced⟩ := htyped.exists_placed 0
    let new : Label → Shape := fun l => ((position? l 0 b).map place).getD (shapes l)
    have hnew {l : Label} {p : Nat} (hp : position? l 0 b = some p) : new l = place p := by
      simp only [new, hp, Option.map_some, Option.getD_some]
    refine ⟨new, fun l hl => ?_, ?_⟩
    · have hmark : l ∉ marks b := fun hmem => by
        have := hrange l hmem
        omega
      simp only [new, position?_eq_none_of_notMem hmark, Option.map_none, Option.getD_none]
    · rw [← hs, ← ht, ← hsize]
      refine Placed.typed ⟨fun n hn => hplaced.depth_le n (by omega), ?_, fun l p hp => ?_⟩ hnodup
      · intro n op' opcode' hop' hopcode'
        obtain ⟨op, hop, halike⟩ := getElem?_of_forall₂ hops hop'
        obtain ⟨opcode, hopcode, hstep⟩ := halike.step opcode' hopcode'
        obtain ⟨jump, hfrom, hshape⟩ := hplaced.step n op opcode hop hopcode
        refine ⟨jump, hstep _ _ _ hfrom, fun o l' hl' => ?_⟩
        subst hl'
        obtain ⟨l, p, hl, -, hp, hp'⟩ := hjump hop'
        rw [hop, Option.some.injEq] at hl
        rw [hnew hp', hplaced.mark l p hp, hshape o l hl]
      · exact (hnew hp).symm

end Bytewright
