import Bytewright.Generator.Region
import Bytewright.Proofs.Shape.Piece

/-!
# Regions are pieces

The handler of a squashing region finds three values more than there were when it was entered, and
the body of a loop runs above the iterator.
-/

namespace Bytewright

open Assemble Generator List

namespace Piece

variable {loops : Bool} {first next : Nat} {body : Stream}

/-! ### Squashed exceptions -/

def squashed (first : Nat) (body : Stream) : Stream :=
  [.jump .setupExcept ⟨first⟩] ++ (body ++ squashClosing ⟨first⟩ ⟨first + 1⟩)

theorem size_squashed (first : Nat) (body : Stream) :
    size (squashed first body) = size body + 9 := by
  simp only [squashed, squashClosing, size, countP_append, countP_cons, countP_nil, Op.isReal]
  simp only [if_true, Bool.false_eq_true, if_false]
  omega

theorem typed_squashClosing {shapes : Label → Shape} {bound : Nat} {s : Shape}
    {handler done : Label}
    (hhandler : shapes handler = s.handler) (hdone : shapes done = s)
    (hbound : s.depth + 3 ≤ bound) :
    Typed shapes bound s.inside (squashClosing handler done) s := by
  obtain ⟨top, under⟩ := s
  have hjoin : Shape.Step (.jump .jumpForward) 0 ⟨top, under⟩ (shapes done)
      (⟨top, under⟩ : Shape).handler := by
    rw [hdone]
    exact .stop [] top rfl (by simp) rfl trivial
  have hplain : (⟨top, under⟩ : Shape).depth ≤ bound := by omega
  have hthree : (⟨top, under⟩ : Shape).handler.depth ≤ bound := by rwa [Shape.depth_handler]
  have htwo : (⟨.any :: .any :: top, under⟩ : Shape).depth ≤ bound := by
    rw [Shape.depth_cons, Shape.depth_cons]
    omega
  have hcount : (Opcode.count .raiseVarargs).Finds 2 [.any, .any] := show 2 ≤ 3 by omega
  refine .plain (j := default) rfl (by simp) (.leave rfl) (by rwa [Shape.depth_inside]) ?_
  refine .jump hjoin hplain (.mark hhandler ?_)
  refine .plain rfl (by simp) (.fall [.any, .any, .any] [.any, .any, .any] top rfl rfl rfl trivial
    (forall₂_below_self _)) hthree ?_
  refine .plain rfl (by simp) (.fall [.any, .any] [.any, .any] (.any :: top) rfl rfl rfl trivial
    (forall₂_below_self _)) hthree ?_
  refine .plain rfl (by simp) (.fall [.any] [] (.any :: .any :: top) rfl rfl rfl trivial .nil)
    hthree ?_
  refine .plain (t := ⟨top, under⟩) rfl (by simp) (.stop [.any, .any] top rfl (by simp) rfl hcount)
    htwo ?_
  refine .jump hjoin hplain ?_
  refine .plain rfl (by simp) (.fall [.any, .any, .any] [] top rfl rfl rfl trivial .nil) hthree ?_
  exact .mark hdone (.nil hplain)

theorem labelled_squashed (hbody : Labelled loops (first + 2) next body) :
    Labelled loops first next (squashed first body) := by
  refine .of_fresh hbody.le hbody.nodup hbody.range ?_ ?_ ?_
  · have hmarks : marks (squashed first body) = marks body ++ [⟨first⟩, ⟨first + 1⟩] := by
      simp [squashed, squashClosing, marks]
    rw [hmarks]
    exact perm_append_comm
  · intro l
    rw [hbody.marked]
    simp only [squashed, squashClosing, references_append, references_cons, Op.jumpTarget,
      mem_append, Option.toList_some, Option.toList_none, not_mem_nil, references_nil,
      freshLabels, range'_succ, range'_zero, map_cons, map_nil, mem_cons]
    tauto
  · refine .cons_jump _ (by simp [squashClosing, marks]) (hbody.forward.append ?_)
    refine .cons_of_ne (by simp) (.cons_jump _ (by simp [marks]) ?_)
    refine .cons_of_ne (by simp) (.cons_of_ne (by simp) (.cons_of_ne (by simp) ?_))
    refine .cons_of_ne (by simp) (.cons_of_ne (by simp) (.cons_jump _ (by simp [marks]) ?_))
    exact .cons_of_ne (by simp) (.cons_of_ne (by simp) trivial)

theorem squash (hbody : Piece loops (first + 2) next [] [] body) :
    Piece loops first next [] [] (squashed first body) := by
  have hle := hbody.le
  refine of_part (labelled_squashed hbody.toLabelled) hle (Nat.zero_le _) ?_
  intro shapes top under bound hbound
  rw [size_squashed, nil_append] at hbound
  let s : Shape := ⟨top, under⟩
  let new := freshShapes shapes first [s.handler, s]
  have hhandler : new ⟨first⟩ = s.handler := freshShapes_eq (i := 0) shapes first rfl
  have hdone : new ⟨first + 1⟩ = s := freshShapes_eq shapes first rfl
  have hdepth : s.depth + (size body + 9) ≤ bound := hbound
  have hopening : Typed new bound s [.jump .setupExcept ⟨first⟩] s.inside := by
    refine .jump ?_ (by omega) (.nil (by rw [Shape.depth_inside]; omega))
    rw [hhandler]
    exact .except rfl
  have hpart : Part (first + 2) (first + 2) next new bound s.inside body s.inside :=
    hbody.part le_rfl new [] (top :: under) (by
      have hinside : (⟨[], top :: under⟩ : Shape).depth = s.depth := s.depth_inside
      rw [nil_append, hinside]
      omega)
  have hclosing : Typed new bound s.inside (squashClosing ⟨first⟩ ⟨first + 1⟩) s :=
    typed_squashClosing hhandler hdone (by omega)
  refine ⟨[s.handler, s], rfl, ?_⟩
  refine (Part.of_typed le_rfl hopening ?_).append (hpart.append (.of_typed hle hclosing ?_))
  · simp [marks, references, Op.jumpTarget]
  · simp only [squashClosing, marks, references, Op.jumpTarget, filterMap_cons,
      filterMap_nil, mem_cons, not_mem_nil, or_false, or_self]
    rintro l ((rfl | rfl) | rfl)
    · exact Nat.lt_add_of_pos_right (by omega)
    · exact Nat.lt_succ_self _
    · exact Nat.lt_succ_self _

/-! ### Loops -/

def looped (first : Nat) (load : Op) (body : Stream) : Stream :=
  [.jump .setupLoop ⟨first + 2⟩, load, .bare .getIter, .mark ⟨first⟩,
    .jump .forIter ⟨first + 1⟩] ++ (body ++
  [.jump .jumpAbsolute ⟨first⟩, .mark ⟨first + 1⟩, .bare .popBlock, .mark ⟨first + 2⟩])

theorem size_looped (first : Nat) (op : NameOp) (x : String) (body : Stream) :
    size (looped first (.name op x) body) = size body + 6 := by
  simp only [looped, size, countP_append, countP_cons, countP_nil, Op.isReal]
  simp only [if_true, Bool.false_eq_true, if_false]
  omega

theorem labelled_looped (op : NameOp) (x : String) (hbody : Labelled true (first + 3) next body) :
    Labelled true first next (looped first (.name op x) body) := by
  refine .of_fresh hbody.le hbody.nodup hbody.range ?_ ?_ ?_
  · have hmarks : marks (looped first (.name op x) body) =
        ⟨first⟩ :: (marks body ++ [⟨first + 1⟩, ⟨first + 2⟩]) := by
      simp [looped, marks]
    rw [hmarks]
    exact List.Perm.cons _ perm_append_comm
  · intro l
    rw [hbody.marked]
    simp only [looped, references_append, references_cons, Op.jumpTarget, mem_append,
      Option.toList_some, Option.toList_none, not_mem_nil, references_nil, freshLabels,
      range'_succ, range'_zero, map_cons, map_nil, mem_cons]
    tauto
  · refine .cons_jump _ (by simp [marks]) (.cons_of_ne (by simp) (.cons_of_ne (by simp) ?_))
    refine .cons_of_ne (by simp) (.cons_jump _ (by simp [marks]) (hbody.forward.append ?_))
    refine ⟨fun o l h hforward => ?_, .cons_of_ne (by simp) (.cons_of_ne (by simp)
      (.cons_of_ne (by simp) trivial))⟩
    -- the jump back is absolute
    cases h
    simp [JumpOp.isRelative] at hforward

theorem loop {op : NameOp} (x : String) (hop : op = .loadFast ∨ op = .loadGlobal)
    (hbody : Piece true (first + 3) next [.any] [] body) :
    Piece true first next [] [] (looped first (.name op x) body) := by
  have hle := hbody.le
  refine of_part (labelled_looped op x hbody.toLabelled) hle (Nat.zero_le _) ?_
  intro shapes top under bound hbound
  rw [size_looped, nil_append] at hbound
  let s : Shape := ⟨top, under⟩
  let each : Shape := ⟨[.iterator], top :: under⟩
  let new := freshShapes shapes first [each, s.inside, s]
  have hstart : new ⟨first⟩ = each := freshShapes_eq (i := 0) shapes first rfl
  have hexhausted : new ⟨first + 1⟩ = s.inside := freshShapes_eq shapes first rfl
  have hdone : new ⟨first + 2⟩ = s := freshShapes_eq shapes first rfl
  have hdepth : s.depth + (size body + 6) ≤ bound := hbound
  have hinside : s.inside.depth = s.depth := s.depth_inside
  have hone (k : Kind) : (⟨[k], top :: under⟩ : Shape).depth = s.depth + 1 := by
    rw [Shape.depth_cons, ← hinside]
    rfl
  have hopening : Typed new bound s [.jump .setupLoop ⟨first + 2⟩, .name op x, .bare .getIter,
      .mark ⟨first⟩, .jump .forIter ⟨first + 1⟩] ⟨[.any, .iterator], top :: under⟩ := by
    have hload : Shape.Step (.name op) 0 s.inside s.inside ⟨[.any], top :: under⟩ := by
      rcases hop with rfl | rfl
      · exact .fall [] [.any] [] rfl rfl rfl trivial (forall₂_below_self _)
      · exact .fall [] [.any] [] rfl rfl rfl trivial (forall₂_below_self _)
    have hloop : Shape.Step (.jump .setupLoop) 0 s (new ⟨first + 2⟩) s.inside := by
      rw [hdone]
      exact .loop rfl
    have hnext : Shape.Step (.jump .forIter) 0 each (new ⟨first + 1⟩)
        ⟨[.any, .iterator], top :: under⟩ := by
      rw [hexhausted]
      exact .fall [.iterator] [.any, .iterator] [] rfl rfl rfl rfl (forall₂_below_self _)
    refine .jump hloop (by omega) (.plain rfl (by simp) hload (by omega) ?_)
    have hiter : Shape.Step (.bare .getIter) 0 ⟨[.any], top :: under⟩ s.inside each :=
      .fall [.any] [.iterator] [] rfl rfl rfl trivial (forall₂_below_self _)
    refine .plain rfl (by simp) hiter (by rw [hone]; omega) (.mark hstart ?_)
    refine .jump hnext (by rw [hone]; omega) (.nil ?_)
    rw [Shape.depth_cons, hone]
    omega
  have hpart : Part (first + 3) (first + 3) next new bound ⟨[.any, .iterator], top :: under⟩ body
      each :=
    hbody.part le_rfl new [.iterator] (top :: under) (by
      rw [Shape.depth_append, hone, length_singleton]
      omega)
  have hclosing : Typed new bound each [.jump .jumpAbsolute ⟨first⟩, .mark ⟨first + 1⟩,
      .bare .popBlock, .mark ⟨first + 2⟩] s := by
    have hback : Shape.Step (.jump .jumpAbsolute) 0 each (new ⟨first⟩) s.inside := by
      rw [hstart]
      exact .stop [] [.iterator] rfl (by simp) rfl trivial
    refine .jump hback (by rw [hone]; omega) (.mark hexhausted ?_)
    exact .plain (j := default) rfl (by simp) (.leave rfl) (by omega)
      (.mark hdone (.nil (by omega)))
  refine ⟨[each, s.inside, s], rfl, ?_⟩
  refine (Part.of_typed le_rfl hopening ?_).append (hpart.append (.of_typed hle hclosing ?_))
  · simp only [marks, references, Op.jumpTarget, filterMap_cons, filterMap_nil,
      mem_cons, not_mem_nil, or_false]
    rintro l (rfl | rfl | rfl)
    · exact Nat.lt_add_of_pos_right (by omega)
    · exact Nat.lt_succ_self _
    · exact Nat.add_lt_add_left (by omega) first
  · simp only [marks, references, Op.jumpTarget, filterMap_cons, filterMap_nil,
      mem_cons, not_mem_nil, or_false]
    rintro l ((rfl | rfl) | rfl)
    · exact Nat.add_lt_add_left (by omega) first
    · exact Nat.lt_succ_self _
    · exact Nat.lt_add_of_pos_right (by omega)

end Piece

end Bytewright
