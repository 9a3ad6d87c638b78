import Bytewright.Proofs.Shape.Code
import Bytewright.Proofs.Stream.Reassemble

/-!
# Streams with the same instructions

Congruent streams are encoded to the same instructions, and they can be put one after the other if
each has labels of its own.
-/

namespace Bytewright

open Assemble List OfCode

/-! ### Congruent streams -/

def Op.Matches (a b : Stream) : Op → Op → Prop
  | .jump o l, op' => ∃ place l', op' = .jump o l' ∧ position? l 0 a = some place ∧
      position? l' 0 b = some place
  | op, op' => op' = op

/-- The same operations, with jumps to the same places, whatever the labels and line markers are. -/
def Congruent (a b : Stream) : Prop := List.Forall₂ (Op.Matches a b) (reals a) (reals b)

variable {op op' : Op} {l : Label}

theorem Op.matches_self {a b : Stream} (hop : ∀ o l, op ≠ .jump o l) : op.Matches a b op := by
  cases op with
  | jump o l => exact absurd rfl (hop o l)
  | _ => rfl

section Congruent

variable {a b c d : Stream}

theorem Op.Matches.congr {α : Type} (f : Op → α) (hjump : ∀ o l l', f (.jump o l) = f (.jump o l'))
    (h : op.Matches a b op') : f op' = f op := by
  cases op with
  | jump o l =>
    obtain ⟨place, l', rfl, -, -⟩ := h
    exact hjump o l' l
  | _ => exact congrArg f h

theorem Op.Matches.trans {op'' : Op} (h : op.Matches a b op') (h' : op'.Matches b c op'') :
    op.Matches a c op'' := by
  cases op with
  | jump o l =>
    obtain ⟨place, l', rfl, hl, hl'⟩ := h
    obtain ⟨place', l'', rfl, hb, hl''⟩ := h'
    obtain rfl : place = place' := Option.some.inj (hl'.symm.trans hb)
    exact ⟨place, l'', rfl, hl, hl''⟩
  | _ =>
    cases h
    exact h'

theorem Op.Matches.symm (h : op.Matches a b op') : op'.Matches b a op := by
  cases op with
  | jump o l =>
    obtain ⟨place, l', rfl, hl, hl'⟩ := h
    exact ⟨place, l, rfl, hl', hl⟩
  | _ =>
    cases h
    rfl

theorem Congruent.trans (h : Congruent a b) (h' : Congruent b c) : Congruent a c := by
  rw [Congruent, forall₂_iff_get] at h h' ⊢
  refine ⟨h.1.trans h'.1, fun i ha hc => ?_⟩
  have hb : i < (reals b).length := h.1 ▸ ha
  exact (h.2 i ha hb).trans (h'.2 i hb hc)

theorem Congruent.symm (h : Congruent a b) : Congruent b a := by
  rw [Congruent, forall₂_iff_get] at h ⊢
  exact ⟨h.1.symm, fun i hb ha => (h.2 i ha hb).symm⟩

theorem Congruent.size_eq (h : Congruent a b) : size b = size a := by
  rw [← length_reals, ← length_reals]
  exact h.length_eq.symm

theorem Congruent.any_isDynamicName_eq (h : Congruent a b) :
    b.any Op.isDynamicName = a.any Op.isDynamicName :=
  Bytewright.any_isDynamicName_eq (fun _ _ hop => hop.congr Op.isDynamicName fun _ _ _ => rfl) h

theorem congruent_self (ha : ∀ o l, .jump o l ∉ a) : Congruent a a :=
  forall₂_same.2 fun _ hop =>
    Op.matches_self fun o l heq => ha o l (heq ▸ mem_of_mem_filter hop)

theorem position?_add (l : Label) (index n : Nat) (ops : Stream) :
    position? l (index + n) ops = (position? l index ops).map (· + n) := by
  induction ops generalizing index with
  | nil => rfl
  | cons op ops ih =>
    cases op with
    | line m => exact ih index
    | mark m =>
      by_cases hm : m = l
      · simp only [position?, if_pos hm, Option.map_some]
      · simp only [position?, if_neg hm]
        exact ih index
    | _ =>
      simp only [position?]
      rw [Nat.add_right_comm, ih]

theorem position?_append_of_notMem (hl : l ∉ marks a) :
    position? l 0 (a ++ b) = (position? l 0 b).map (· + size a) := by
  rw [position?_append, position?_eq_none_of_notMem hl, Option.none_or, position?_add]

theorem Congruent.append (h : Congruent a b) (h' : Congruent c d)
    (hac : ∀ l ∈ references c, l ∉ marks a) (hbd : ∀ l ∈ references d, l ∉ marks b) :
    Congruent (a ++ c) (b ++ d) := by
  have hfirst {op op' : Op} (hop : op.Matches a b op') : op.Matches (a ++ c) (b ++ d) op' := by
    cases op with
    | jump o l =>
      obtain ⟨place, l', rfl, hl, hl'⟩ := hop
      refine ⟨place, l', rfl, ?_, ?_⟩
      · rw [position?_append, hl, Option.some_or]
      · rw [position?_append, hl', Option.some_or]
    | _ => exact hop
  have hsecond {op op' : Op} (hmem : op ∈ reals c) (hmem' : op' ∈ reals d)
      (hop : op.Matches c d op') : op.Matches (a ++ c) (b ++ d) op' := by
    cases op with
    | jump o l =>
      obtain ⟨place, l', rfl, hl, hl'⟩ := hop
      refine ⟨place + size a, l', rfl, ?_, ?_⟩
      · rw [position?_append_of_notMem (hac l (mem_references_reals.2 ⟨o, hmem⟩)), hl]
        rfl
      · rw [position?_append_of_notMem (hbd l' (mem_references_reals.2 ⟨o, hmem'⟩)), hl', h.size_eq]
        rfl
    | _ => exact hop
  rw [Congruent, reals_append, reals_append]
  refine rel_append (List.Forall₂.imp (fun _ _ hop => hfirst hop) h) ?_
  rw [Congruent, forall₂_iff_get] at h'
  refine forall₂_iff_get.2 ⟨h'.1, fun i hc hd => ?_⟩
  exact hsecond (get_mem _ _) (get_mem _ _) (h'.2 i hc hd)

theorem Piece.notMem_marks {loops : Bool} {first mid next : Nat} {ins between outs : List Kind}
    (ha : Piece loops first mid ins between a) (hc : Piece loops mid next between outs c) :
    ∀ l ∈ references c, l ∉ marks a := by
  intro l hl hmark
  have hlow := ha.range l hmark
  have hhigh := hc.labels l (.inr hl)
  omega

end Congruent

/-! ### Other numbers in labels -/

def Label.shift (n : Nat) (l : Label) : Label := ⟨l.id + n⟩

theorem Label.shift_inj {n : Nat} {m : Label} : m.shift n = l.shift n ↔ m = l := by
  obtain ⟨l⟩ := l
  obtain ⟨m⟩ := m
  simp [Label.shift]

def Op.shift (n : Nat) : Op → Op
  | .mark l => .mark (l.shift n)
  | .jump o l => .jump o (l.shift n)
  | op => op

theorem position?_shift (n : Nat) (l : Label) (index : Nat) (ops : Stream) :
    position? (l.shift n) index (ops.map (Op.shift n)) = position? l index ops := by
  induction ops generalizing index with
  | nil => rfl
  | cons op ops ih =>
    cases op with
    | mark m =>
      by_cases hm : m = l
      · simp only [map_cons, Op.shift, position?, hm, if_true]
      · simp only [map_cons, Op.shift, position?, Label.shift_inj, hm, if_false]
        exact ih index
    | line m => exact ih index
    | _ => exact ih (index + 1)

theorem reals_shift (n : Nat) (ops : Stream) :
    reals (ops.map (Op.shift n)) = (reals ops).map (Op.shift n) := by
  have hreal (op : Op) : (op.shift n).isReal = op.isReal := by cases op <;> rfl
  rw [reals, filter_map]
  exact congrArg _ (filter_congr fun op _ => hreal op)

theorem size_shift (n : Nat) (ops : Stream) : size (ops.map (Op.shift n)) = size ops := by
  rw [← length_reals, reals_shift, length_map, length_reals]

theorem congruent_shift {ops : Stream} (n : Nat) (hops : ∀ l ∈ references ops, l ∈ marks ops) :
    Congruent ops (ops.map (Op.shift n)) := by
  rw [Congruent, reals_shift, forall₂_map_right_iff, forall₂_same]
  intro op hop
  cases op with
  | jump o l =>
    have hl := hops l (mem_references_reals.2 ⟨o, hop⟩)
    obtain ⟨place, hplace⟩ := Option.isSome_iff_exists.1 (isSome_position?_iff.2 hl)
    exact ⟨place, l.shift n, rfl, hplace, (position?_shift n l 0 ops).trans hplace⟩
  | mark l => cases of_mem_filter hop
  | _ => rfl

/-! ### Units of congruent streams -/

section Assembled

variable {a b : Stream} {p : Pools}

theorem Op.Matches.argument_eq_ok (h : op.Matches a b op') {index : Nat} {r : UInt32 × Pools}
    (harg : argument a index p op = .ok r) : argument b index p op' = .ok r := by
  cases op with
  | jump o l =>
    obtain ⟨place, l', rfl, hl, hl'⟩ := h
    obtain ⟨hjump, hr⟩ := argument_jump_eq_ok_iff.1 harg
    refine argument_jump_eq_ok_iff.2 ⟨?_, hr⟩
    -- the labels differ, and only an error shows them
    simp only [jumpArg, hl, hl'] at hjump ⊢
    split_ifs at hjump ⊢ with hrelative hback
    · exact hjump
    · exact hjump
  | _ =>
    cases h
    exact harg

theorem encode_reals (whole : Stream) (index : Nat) (p : Pools) (ops : Stream) :
    encode whole index p (reals ops) = encode whole index p ops := by
  induction ops generalizing index p with
  | nil => rfl
  | cons op ops ih =>
    cases hop : op.opcode with
    | none => rw [reals_cons_of_marker hop, encode_cons_of_marker hop, ih]
    | some opcode =>
      rw [reals_cons_of_isReal (isReal_of_opcode hop), encode, encode, hop]
      simp only [ih]

theorem Congruent.encode_eq_ok (h : Congruent a b) {last : Pools} {code : List Instruction}
    (hcode : encode a 0 p a = .ok (code, last)) : encode b 0 p b = .ok (code, last) := by
  have hreals {x y : Stream} (hxy : List.Forall₂ (Op.Matches a b) x y) {index : Nat} {p : Pools}
      {code : List Instruction} (hx : ∀ op ∈ x, op.isReal = true)
      (hcode : encode a index p x = .ok (code, last)) :
      encode b index p y = .ok (code, last) := by
    induction hxy generalizing index p code with
    | nil => exact hcode
    | @cons op op' x y hop _ ih =>
      obtain ⟨hreal, hx⟩ := forall_mem_cons.1 hx
      obtain ⟨opcode, hopcode⟩ := exists_opcode_of_isReal hreal
      obtain ⟨arg, p', tail, harg, htail, rfl⟩ := (encode_cons_eq_ok_iff hopcode).1 hcode
      exact (encode_cons_eq_ok_iff ((hop.congr Op.opcode fun _ _ _ => rfl).trans hopcode)).2
        ⟨arg, p', tail, hop.argument_eq_ok harg, ih hx htail, rfl⟩
  rw [← encode_reals] at hcode ⊢
  exact hreals h (fun op hop => of_mem_filter hop) hcode

theorem Assembled.congr {fileName : String} {header : Header} {c : Code}
    (ha : Assembled fileName a header c) (h : Congruent a b) (hb : checkLabels b = .ok ()) :
    Assembled fileName b header { c with lines := lineTable 0 [] b } :=
  { ha with
    labels := hb
    encode_eq := h.encode_eq_ok ha.encode_eq
    flags_eq := by
      rw [ha.flags_eq, flags, flags, h.any_isDynamicName_eq]
    lines_eq := rfl }

end Assembled

end Bytewright
