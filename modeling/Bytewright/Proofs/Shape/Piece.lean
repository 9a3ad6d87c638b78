import Bytewright.Proofs.Shape.Typing

/-!
# Pieces of code

Pieces are put together one after the other, and around other pieces.
-/

namespace Bytewright

open Assemble List

/-! ### Forward jumps -/

/-- Relative jumps lead forward, and so do all others outside of loops. -/
def Forward (loops : Bool) : Stream → Prop
  | [] => True
  | op :: ops =>
    (∀ o l, op = .jump o l → loops = false ∨ o.isRelative = true → l ∈ marks ops) ∧
      Forward loops ops

theorem Forward.append {loops : Bool} {a b : Stream} (ha : Forward loops a)
    (hb : Forward loops b) : Forward loops (a ++ b) := by
  induction a with
  | nil => exact hb
  | cons op a ih =>
    refine ⟨fun o l hop hforward => ?_, ih ha.2⟩
    show l ∈ marks (a ++ b)
    rw [marks_append]
    exact mem_append_left _ (ha.1 o l hop hforward)

variable {ops : Stream} {l : Label} {fresh : Nat}

theorem Forward.cons_jump {loops : Bool} (o : JumpOp) (hl : l ∈ marks ops) (h : Forward loops ops) :
    Forward loops (.jump o l :: ops) := by
  refine ⟨fun o' l' hop _ => ?_, h⟩
  cases hop
  exact hl

theorem Forward.cons_of_ne {loops : Bool} {op : Op} (hop : ∀ o l, op ≠ .jump o l)
    (h : Forward loops ops) : Forward loops (op :: ops) :=
  ⟨fun o l ho => absurd ho (hop o l), h⟩

theorem Forward.of_all {loops : Bool} (h : Forward false ops) : Forward loops ops := by
  induction ops with
  | nil => trivial
  | cons op ops ih => exact ⟨fun o l hop _ => h.1 o l hop (.inl rfl), ih h.2⟩

/-! ### Labels of its own -/

/-- The labels of the stream are its own, and each is marked once and jumped to. -/
structure Labelled (loops : Bool) (first next : Nat) (ops : Stream) : Prop where
  le : first ≤ next
  range : ∀ l ∈ marks ops, first ≤ l.id ∧ l.id < next
  nodup : (marks ops).Nodup
  marked : ∀ l, l ∈ marks ops ↔ l ∈ references ops
  forward : Forward loops ops

def freshLabels (first count : Nat) : List Label := (List.range' first count).map Label.mk

theorem mem_freshLabels {first count : Nat} :
    l ∈ freshLabels first count ↔ first ≤ l.id ∧ l.id < first + count := by
  rw [freshLabels, mem_map]
  constructor
  · rintro ⟨n, hn, rfl⟩
    exact mem_range'_1.1 hn
  · intro hl
    exact ⟨l.id, mem_range'_1.2 hl, rfl⟩

theorem nodup_freshLabels (first count : Nat) : (freshLabels first count).Nodup :=
  List.Nodup.map (fun a b hab => by cases hab; rfl) nodup_range'

namespace Labelled

variable {loops : Bool} {first mid next : Nat} {a b : Stream}

theorem nil (loops : Bool) (first : Nat) : Labelled loops first first [] where
  le := le_rfl
  range l hl := by cases hl
  nodup := nodup_nil
  marked l := by simp
  forward := trivial

theorem append (ha : Labelled loops first mid a) (hb : Labelled loops mid next b) :
    Labelled loops first next (a ++ b) where
  le := ha.le.trans hb.le
  range l hl := by
    have hle := ha.le
    have hle' := hb.le
    rw [marks_append, mem_append] at hl
    rcases hl with hl | hl
    · have := ha.range l hl
      omega
    · have := hb.range l hl
      omega
  nodup := by
    rw [marks_append]
    refine nodup_append'.2 ⟨ha.nodup, hb.nodup, fun l hl hl' => ?_⟩
    have := ha.range l hl
    have := hb.range l hl'
    omega
  marked l := by
    rw [marks_append, references_append, mem_append, mem_append, ha.marked, hb.marked]
  forward := ha.forward.append hb.forward

theorem of_le (h : Labelled loops mid next a) (hle : first ≤ mid) : Labelled loops first next a :=
  { h with
    le := hle.trans h.le
    range := fun l hl => ⟨hle.trans (h.range l hl).1, (h.range l hl).2⟩ }

theorem single (loops : Bool) (first : Nat) {op : Op} (hmark : ∀ l, op ≠ .mark l)
    (hjump : ∀ o l, op ≠ .jump o l) : Labelled loops first first [op] := by
  have hmarks : marks [op] = [] := marks_cons_of_ne hmark []
  have hreferences : references [op] = [] := by
    refine eq_nil_iff_forall_not_mem.2 fun l hl => ?_
    obtain ⟨o, ho⟩ := mem_references_iff.1 hl
    exact hjump o l (mem_singleton.1 ho).symm
  exact {
    le := le_rfl
    range := fun l hl => by rw [hmarks] at hl; cases hl
    nodup := by rw [hmarks]; exact nodup_nil
    marked := fun l => by rw [hmarks, hreferences]
    forward := .cons_of_ne hjump trivial }

theorem of_fresh {inner : List Label} (hle : first + fresh ≤ next) (hinner : inner.Nodup)
    (hrange : ∀ l ∈ inner, first + fresh ≤ l.id ∧ l.id < next)
    (hmarks : (marks ops).Perm (freshLabels first fresh ++ inner))
    (hreferences : ∀ l, l ∈ references ops ↔ l ∈ freshLabels first fresh ∨ l ∈ inner)
    (hforward : Forward loops ops) : Labelled loops first next ops where
  le := by omega
  range l hl := by
    rcases mem_append.1 (hmarks.mem_iff.1 hl) with hl | hl
    · have := mem_freshLabels.1 hl
      omega
    · have := hrange l hl
      omega
  nodup := by
    refine hmarks.nodup_iff.2 (nodup_append'.2 ⟨nodup_freshLabels _ _, hinner, ?_⟩)
    intro l hl hl'
    have := mem_freshLabels.1 hl
    have := hrange l hl'
    omega
  marked l := by rw [hmarks.mem_iff, hreferences, mem_append]
  forward := hforward

end Labelled

/-! ### Parts -/

structure Part (outer first next : Nat) (shapes : Label → Shape) (bound : Nat) (s : Shape)
    (ops : Stream) (t : Shape) : Prop where
  outer_le : outer ≤ first
  le : first ≤ next
  labels : ∀ l, l ∈ marks ops ∨ l ∈ references ops → l.id < outer ∨ (first ≤ l.id ∧ l.id < next)
  typed : ∃ own : Label → Shape, (∀ l, l.id < first ∨ next ≤ l.id → own l = shapes l) ∧
    Typed own bound s ops t

namespace Part

variable {outer first mid next bound : Nat} {shapes : Label → Shape} {s t u : Shape}
  {a b : Stream}

theorem append (ha : Part outer first mid shapes bound s a t)
    (hb : Part outer mid next shapes bound t b u) :
    Part outer first next shapes bound s (a ++ b) u := by
  have houter := ha.outer_le
  have hle := ha.le
  have hle' := hb.le
  obtain ⟨own, hown, htyped⟩ := ha.typed
  obtain ⟨own', hown', htyped'⟩ := hb.typed
  refine ⟨houter, hle.trans hle', fun l hl => ?_, fun l => if l.id < mid then own l else own' l,
    fun l hl => ?_, ?_⟩
  · rw [marks_append, references_append, mem_append, mem_append] at hl
    rcases hl with (hl | hl) | hl | hl
    · have := ha.labels l (.inl hl)
      omega
    · have := hb.labels l (.inl hl)
      omega
    · have := ha.labels l (.inr hl)
      omega
    · have := hb.labels l (.inr hl)
      omega
  · dsimp only
    split_ifs with hmid
    · exact hown l (by omega)
    · exact hown' l (by omega)
  · refine (htyped.congr fun l hl => ?_).append (htyped'.congr fun l hl => ?_)
    · have := ha.labels l hl
      exact if_pos (by omega)
    · -- a label of the second stream that is not its own is one of the others
      split_ifs with hmid
      · have := hb.labels l hl
        rw [hown l (by omega), hown' l (by omega)]
      · rfl

theorem of_typed (houter : outer ≤ first) (htyped : Typed shapes bound s a t)
    (hlabels : ∀ l, l ∈ marks a ∨ l ∈ references a → l.id < outer) :
    Part outer first first shapes bound s a t :=
  ⟨houter, le_rfl, fun l hl => .inl (hlabels l hl), shapes, fun _ _ => rfl, htyped⟩

end Part

/-! ### Pieces -/

/-- A stream that can stand anywhere: whatever lies below the values it takes, it puts the values it
leaves in their place. -/
structure Piece (loops : Bool) (first next : Nat) (ins outs : List Kind) (ops : Stream) :
    Prop extends Labelled loops first next ops where
  growth : outs.length ≤ ins.length + size ops
  typed : ∀ (shapes : Label → Shape) (top : List Kind) (under : List (List Kind)) (bound : Nat),
    (⟨ins ++ top, under⟩ : Shape).depth + size ops ≤ bound →
    ∃ own : Label → Shape, (∀ l, l.id < first ∨ next ≤ l.id → own l = shapes l) ∧
      Typed own bound ⟨ins ++ top, under⟩ ops ⟨outs ++ top, under⟩

namespace Piece

variable {loops : Bool} {first mid next : Nat} {ins between outs : List Kind} {a b : Stream}
  {opcode : Opcode} {own : List Shape}

theorem labels (h : Piece loops first next ins outs a) (l : Label)
    (hl : l ∈ marks a ∨ l ∈ references a) : first ≤ l.id ∧ l.id < next :=
  h.range l (hl.elim id (h.marked l).2)

theorem part (h : Piece loops first next ins outs a) {outer bound : Nat} (houter : outer ≤ first)
    (shapes : Label → Shape) (top : List Kind) (under : List (List Kind))
    (hbound : (⟨ins ++ top, under⟩ : Shape).depth + size a ≤ bound) :
    Part outer first next shapes bound ⟨ins ++ top, under⟩ a ⟨outs ++ top, under⟩ :=
  ⟨houter, h.le, fun l hl => .inr (h.labels l hl), h.typed shapes top under bound hbound⟩

theorem nil (loops : Bool) (first : Nat) (ins : List Kind) : Piece loops first first ins ins [] :=
  .mk (.nil loops first) (Nat.le_add_right _ _) fun shapes _ _ _ hbound =>
    ⟨shapes, fun _ _ => rfl, .nil (by simpa using hbound)⟩

theorem append (ha : Piece loops first mid ins between a)
    (hb : Piece loops mid next between outs b) : Piece loops first next ins outs (a ++ b) := by
  refine .mk (ha.toLabelled.append hb.toLabelled) ?_ fun shapes top under bound hbound => ?_
  · have := ha.growth
    have := hb.growth
    rw [size_append]
    omega
  · have hgrowth := ha.growth
    rw [size_append, Shape.depth_append] at hbound
    have hpart : Part 0 first mid shapes bound ⟨ins ++ top, under⟩ a ⟨between ++ top, under⟩ :=
      ha.part (Nat.zero_le _) shapes top under (by rw [Shape.depth_append]; omega)
    have hpart' : Part 0 mid next shapes bound ⟨between ++ top, under⟩ b ⟨outs ++ top, under⟩ :=
      hb.part (Nat.zero_le _) shapes top under (by rw [Shape.depth_append]; omega)
    exact (hpart.append hpart').typed

theorem frame (h : Piece loops first next ins outs a) (rest : List Kind) :
    Piece loops first next (ins ++ rest) (outs ++ rest) a := by
  refine .mk h.toLabelled ?_ fun shapes top under bound hbound => ?_
  · have := h.growth
    simp only [length_append]
    omega
  · rw [append_assoc] at hbound ⊢
    rw [append_assoc]
    exact h.typed shapes (rest ++ top) under bound hbound

theorem of_all (h : Piece false first next ins outs a) : Piece loops first next ins outs a :=
  { h with forward := h.forward.of_all }

theorem line (loops : Bool) (first : Nat) (ins : List Kind) (n : UInt32) :
    Piece loops first first ins ins [.line n] :=
  .mk (.single loops first (by simp) (by simp)) (Nat.le_add_right _ _)
    fun shapes _ _ _ hbound => ⟨shapes, fun _ _ => rfl, .line n (.nil (by have := hbound; omega))⟩

theorem real (loops : Bool) (first : Nat) {op : Op} (hop : op.opcode = some opcode)
    (hjump : ∀ o l, op ≠ .jump o l) (hgrowth : outs.length ≤ ins.length + 1)
    (hstep : ∀ top under, ∃ jump,
      Shape.Step opcode op.countArg ⟨ins ++ top, under⟩ jump ⟨outs ++ top, under⟩) :
    Piece loops first first ins outs [op] := by
  have hreal := isReal_of_opcode hop
  have hmark (l : Label) : op ≠ .mark l := by
    rintro rfl
    cases hop
  have hsize : size [op] = 1 := by rw [size_cons_of_isReal hreal, size_nil]
  refine .mk (.single loops first hmark hjump) (by rwa [hsize])
    fun shapes top under bound hbound => ?_
  rw [hsize, Shape.depth_append] at hbound
  obtain ⟨jump, hstep⟩ := hstep top under
  refine ⟨shapes, fun _ _ => rfl, .real hop hstep (fun o l ho => absurd ho (hjump o l)) ?_
    (.nil ?_)⟩
  · rw [Shape.depth_append]
    omega
  · rw [Shape.depth_append]
    omega

theorem op (loops : Bool) (first : Nat) {o : Op} (hop : o.opcode = some opcode)
    (hjump : ∀ j l, o ≠ .jump j l) (hflow : opcode.endsFlow = false)
    (hblock : opcode.movesBlock = false) (hgrowth : outs.length ≤ ins.length + 1)
    (hins : ins.length = (opcode.effect o.countArg).1) (hfinds : opcode.Finds o.countArg ins)
    (houts : List.Forall₂ Kind.Below (opcode.leaves o.countArg) outs) :
    Piece loops first first ins outs [o] :=
  real loops first hop hjump hgrowth fun _ _ => ⟨_, .fall ins outs _ hflow hblock hins hfinds houts⟩

/-! ### Pieces with labels -/

def freshShapes (shapes : Label → Shape) (first : Nat) (own : List Shape) (l : Label) : Shape :=
  if l.id < first then shapes l else own.getD (l.id - first) (shapes l)

theorem freshShapes_of_outside {shapes : Label → Shape}
    (hl : l.id < first ∨ first + own.length ≤ l.id) :
    freshShapes shapes first own l = shapes l := by
  by_cases hlt : l.id < first
  · exact if_pos hlt
  · rw [freshShapes, if_neg hlt, getD_eq_default _ _ (by omega)]

theorem freshShapes_eq {i : Nat} {s : Shape} (shapes : Label → Shape) (first : Nat)
    (hs : own[i]? = some s) : freshShapes shapes first own ⟨first + i⟩ = s := by
  rw [freshShapes, if_neg (by simp), Nat.add_sub_cancel_left, getD_eq_getElem?_getD, hs,
    Option.getD_some]

theorem of_part (hlabelled : Labelled loops first next ops) (hle : first + fresh ≤ next)
    (hgrowth : outs.length ≤ ins.length + size ops)
    (hpart : ∀ (shapes : Label → Shape) (top : List Kind) (under : List (List Kind)) (bound : Nat),
      (⟨ins ++ top, under⟩ : Shape).depth + size ops ≤ bound →
      ∃ own : List Shape, own.length = fresh ∧
        Part (first + fresh) (first + fresh) next (freshShapes shapes first own) bound
          ⟨ins ++ top, under⟩ ops ⟨outs ++ top, under⟩) : Piece loops first next ins outs ops := by
  refine .mk hlabelled hgrowth fun shapes top under bound hbound => ?_
  obtain ⟨own, hlength, hpart⟩ := hpart shapes top under bound hbound
  obtain ⟨new, hnew, htyped⟩ := hpart.typed
  refine ⟨new, fun l hl => ?_, htyped⟩
  rw [hnew l (by omega), freshShapes_of_outside (by omega)]

def choice (first : Nat) (c t e : Stream) : Stream :=
  c ++ (.jump .popJumpIfFalse ⟨first⟩ :: (t ++ (.jump .jumpForward ⟨first + 1⟩ :: .mark ⟨first⟩ ::
    (e ++ [.mark ⟨first + 1⟩]))))

theorem size_choice (first : Nat) (c t e : Stream) :
    size (choice first c t e) = size c + size t + size e + 2 := by
  simp only [choice, size, countP_append, countP_cons, countP_nil, Op.isReal]
  simp only [if_true, Bool.false_eq_true, if_false]
  omega

theorem conditional {m₁ m₂ : Nat} {c t e : Stream} (hc : Piece loops (first + 2) m₁ [] [.any] c)
    (ht : Piece loops m₁ m₂ [] outs t) (he : Piece loops m₂ next [] outs e) :
    Piece loops first next [] outs (choice first c t e) := by
  have hle := hc.le
  have hle' := ht.le
  have hle'' := he.le
  have hgrowth := ht.growth
  have hpieces := (hc.append (ht.frame [.any])).append (he.frame (outs ++ [.any]))
  rw [length_nil, Nat.zero_add] at hgrowth
  have hall : first + 2 ≤ next := by omega
  refine of_part (.of_fresh hall hpieces.nodup hpieces.range ?_ ?_ ?_) hall ?_ ?_
  · have hmarks : marks (choice first c t e) =
        marks c ++ (marks t ++ (⟨first⟩ :: (marks e ++ [⟨first + 1⟩]))) := by
      simp [choice, marks]
    rw [hmarks, perm_iff_count]
    intro l
    simp only [freshLabels, marks_append, count_append, count_cons, count_nil,
      range'_succ, range'_zero, map_cons, map_nil]
    omega
  · intro l
    rw [hpieces.marked]
    simp only [choice, references_append, references_cons, Op.jumpTarget, mem_append,
      Option.toList_some, Option.toList_none, not_mem_nil, references_nil,
      freshLabels, range'_succ, range'_zero, map_cons, map_nil, mem_cons]
    tauto
  · refine hc.forward.append (.cons_jump _ (by simp [marks]) (ht.forward.append
      (.cons_jump _ (by simp [marks]) (.cons_of_ne (fun o l h => by cases h)
        (he.forward.append (.cons_of_ne (fun o l h => by cases h) trivial))))))
  · rw [size_choice]
    simp only [length_nil]
    omega
  · intro shapes top under bound hbound
    rw [size_choice, Shape.depth_append, length_nil, Nat.zero_add] at hbound
    let new := freshShapes shapes first [⟨top, under⟩, ⟨outs ++ top, under⟩]
    have hfirst : new ⟨first⟩ = ⟨top, under⟩ := freshShapes_eq (i := 0) shapes first rfl
    have hsecond : new ⟨first + 1⟩ = ⟨outs ++ top, under⟩ := freshShapes_eq shapes first rfl
    have hcondition : (⟨.any :: top, under⟩ : Shape).depth ≤ bound := by
      have := hc.growth
      rw [Shape.depth_cons]
      simp only [length_cons, length_nil] at this
      omega
    have hresult : (⟨outs ++ top, under⟩ : Shape).depth ≤ bound := by
      rw [Shape.depth_append]
      omega
    refine ⟨[⟨top, under⟩, ⟨outs ++ top, under⟩], rfl, ?_⟩
    have hcond : Part (first + 2) (first + 2) m₁ new bound ⟨top, under⟩ c ⟨.any :: top, under⟩ :=
      hc.part le_rfl new top under (by simpa using by omega)
    have hskip : Typed new bound ⟨.any :: top, under⟩ [.jump .popJumpIfFalse ⟨first⟩]
        ⟨top, under⟩ := by
      refine .jump ?_ hcondition (.nil (by omega))
      rw [hfirst]
      exact .fall [.any] [] top rfl rfl rfl trivial .nil
    have hthen : Part (first + 2) m₁ m₂ new bound ⟨top, under⟩ t ⟨outs ++ top, under⟩ :=
      ht.part hle new top under (by simpa using by omega)
    have hjoin : Typed new bound ⟨outs ++ top, under⟩
        [.jump .jumpForward ⟨first + 1⟩, .mark ⟨first⟩] ⟨top, under⟩ := by
      refine .jump ?_ hresult (.mark hfirst (.nil (by omega)))
      rw [hsecond]
      exact .stop [] (outs ++ top) rfl (by simp) rfl trivial
    have helse : Part (first + 2) m₂ next new bound ⟨top, under⟩ e ⟨outs ++ top, under⟩ :=
      he.part (by omega) new top under (by simpa using by omega)
    have hend : Typed new bound ⟨outs ++ top, under⟩ [.mark ⟨first + 1⟩] ⟨outs ++ top, under⟩ :=
      .mark hsecond (.nil hresult)
    exact hcond.append ((Part.of_typed hle hskip
      (by simp [marks, references, Op.jumpTarget])).append
      (hthen.append ((Part.of_typed (by omega) hjoin
        (by simp [marks, references, Op.jumpTarget])).append
          (helse.append (.of_typed (by omega) hend (by simp [marks, references, Op.jumpTarget]))))))

end Piece

end Bytewright
