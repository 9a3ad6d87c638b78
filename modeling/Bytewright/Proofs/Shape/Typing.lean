import Bytewright.Proofs.Machine.Execute
import Bytewright.Proofs.Stream.Encoding

/-!
# Shapes of the stack

An instruction takes values only from above the innermost open block, so an exception finds the
values below a block as they were when it was opened.
-/

namespace Bytewright

open List

/-! ### Kinds -/

def Kind.Below (k k' : Kind) : Prop := k' = k ∨ k' = .any

theorem Kind.Below.holds {k k' : Kind} {v : Value} (h : k.Below k') (hv : k.Holds v) :
    k'.Holds v := by
  rcases h with rfl | rfl
  · exact hv
  · trivial

theorem forall₂_below_self (ks : List Kind) : List.Forall₂ Kind.Below ks ks :=
  forall₂_same.2 fun _ _ => .inl rfl

def Opcode.Finds (op : Opcode) (arg : UInt32) (taken : List Kind) : Prop :=
  match op with
  | .bare .storeMap => taken[2]? = some .dict
  | .jump .forIter => taken[0]? = some .iterator
  | .count .makeFunction | .name .loadDeref => False
  | .count .raiseVarargs => arg.toNat ≤ 3
  | _ => True

/-! ### Shapes -/

/-- What is known about the values on the stack, those below each open block apart from those above.
-/
structure Shape where
  top : List Kind
  under : List (List Kind)
deriving DecidableEq, Repr, Inhabited

namespace Shape

def depth (s : Shape) : Nat := s.top.length + (s.under.map length).sum

def handler (s : Shape) : Shape := ⟨.any :: .any :: .any :: s.top, s.under⟩

def inside (s : Shape) : Shape := ⟨[], s.top :: s.under⟩

@[simp] theorem depth_inside (s : Shape) : s.inside.depth = s.depth := by
  simp [depth, inside]

@[simp] theorem depth_handler (s : Shape) : s.handler.depth = s.depth + 3 := by
  simp only [depth, handler, length_cons]
  omega

theorem depth_append (taken rest : List Kind) (under : List (List Kind)) :
    (⟨taken ++ rest, under⟩ : Shape).depth = taken.length + (⟨rest, under⟩ : Shape).depth := by
  simp only [depth, length_append]
  omega

theorem depth_cons (k : Kind) (rest : List Kind) (under : List (List Kind)) :
    (⟨k :: rest, under⟩ : Shape).depth = (⟨rest, under⟩ : Shape).depth + 1 := by
  simp only [depth, length_cons]
  omega

/-- The instruction leads from one shape to the shape where it jumps to and to the next one. -/
inductive Step (op : Opcode) (arg : UInt32) : Shape → Shape → Shape → Prop
  | fall (taken left rest : List Kind) {under : List (List Kind)} (hflow : op.endsFlow = false)
      (hblock : op.movesBlock = false) (htaken : taken.length = (op.effect arg).1)
      (hfinds : op.Finds arg taken) (hleft : List.Forall₂ Kind.Below (op.leaves arg) left) :
      Step op arg ⟨taken ++ rest, under⟩ ⟨rest, under⟩ ⟨left ++ rest, under⟩
  | stop (taken rest : List Kind) {under : List (List Kind)} {next : Shape}
      (hflow : op.endsFlow = true) (hreturn : op ≠ .bare .returnValue)
      (htaken : taken.length = (op.effect arg).1) (hfinds : op.Finds arg taken) :
      Step op arg ⟨taken ++ rest, under⟩ ⟨rest, under⟩ next
  | ret {k : Kind} {jump next : Shape} (hop : op = .bare .returnValue) :
      Step op arg ⟨[k], []⟩ jump next
  | except {s : Shape} (hop : op = .jump .setupExcept) : Step op arg s s.handler s.inside
  | loop {s : Shape} (hop : op = .jump .setupLoop) : Step op arg s s s.inside
  | leave {s jump : Shape} (hop : op = .bare .popBlock) : Step op arg s.inside jump s

theorem Step.congr {op op' : Opcode} {arg arg' : UInt32} {s j t : Shape} (h : Step op arg s j t)
    (hop : op' = op ∨ op.endsFlow = false ∧ op.movesBlock = false ∧ op'.endsFlow = false ∧
      op'.movesBlock = false)
    (heffect : op'.effect arg' = op.effect arg) (hleaves : op'.leaves arg' = op.leaves arg)
    (hfinds : ∀ taken, op.Finds arg taken → op'.Finds arg' taken) : Step op' arg' s j t := by
  cases h with
  | fall taken left rest hflow hblock htaken hf hleft =>
    refine .fall taken left rest ?_ ?_ (by rwa [heffect]) (hfinds _ hf) (by rwa [hleaves])
    · rcases hop with rfl | ⟨-, -, hflow', -⟩ <;> assumption
    · rcases hop with rfl | ⟨-, -, -, hblock'⟩ <;> assumption
  | stop taken rest hflow hreturn htaken hf =>
    rcases hop with rfl | ⟨hflow', -⟩
    · exact .stop taken rest hflow hreturn (by rwa [heffect]) (hfinds _ hf)
    · rw [hflow] at hflow'
      cases hflow'
  | ret heq =>
    rcases hop with rfl | ⟨hflow', -⟩
    · exact .ret heq
    · rw [heq] at hflow'
      cases hflow'
  | except heq | loop heq | leave heq =>
    rcases hop with rfl | ⟨-, hblock', -⟩
    · first | exact .except heq | exact .loop heq | exact .leave heq
    · rw [heq] at hblock'
      cases hblock'

end Shape

/-! ### Streams -/

def Op.countArg : Op → UInt32
  | .count _ n => n
  | .call _ args kwds => argSpec args kwds
  | _ => 0

/-- With these shapes for its labels, the stream leads from one shape to the other. -/
inductive Typed (shapes : Label → Shape) (bound : Nat) : Shape → Stream → Shape → Prop
  | nil {s : Shape} (hbound : s.depth ≤ bound) : Typed shapes bound s [] s
  | line {s t : Shape} {ops : Stream} (n : UInt32) (h : Typed shapes bound s ops t) :
      Typed shapes bound s (.line n :: ops) t
  | mark {s t : Shape} {ops : Stream} {l : Label} (hl : shapes l = s)
      (h : Typed shapes bound s ops t) : Typed shapes bound s (.mark l :: ops) t
  | real {s jump next t : Shape} {op : Op} {opcode : Opcode} {ops : Stream}
      (hop : op.opcode = some opcode) (hstep : Shape.Step opcode op.countArg s jump next)
      (hjump : ∀ o l, op = .jump o l → shapes l = jump) (hbound : s.depth ≤ bound)
      (h : Typed shapes bound next ops t) : Typed shapes bound s (op :: ops) t

namespace Typed

variable {shapes : Label → Shape} {bound : Nat} {s t u : Shape} {a b : Stream}

theorem jump {o : JumpOp} {l : Label} (hstep : Shape.Step (.jump o) 0 s (shapes l) t)
    (hbound : s.depth ≤ bound) (h : Typed shapes bound t a u) :
    Typed shapes bound s (.jump o l :: a) u := by
  refine .real rfl hstep (fun o' l' hop => ?_) hbound h
  cases hop
  rfl

theorem plain {op : Op} {opcode : Opcode} {j : Shape} (hop : op.opcode = some opcode)
    (hjump : ∀ o l, op ≠ .jump o l) (hstep : Shape.Step opcode op.countArg s j t)
    (hbound : s.depth ≤ bound) (h : Typed shapes bound t a u) : Typed shapes bound s (op :: a) u :=
  .real hop hstep (fun o l ho => absurd ho (hjump o l)) hbound h

theorem append (ha : Typed shapes bound s a t) (hb : Typed shapes bound t b u) :
    Typed shapes bound s (a ++ b) u := by
  induction ha with
  | nil _ => exact hb
  | line n _ ih => exact .line n (ih hb)
  | mark hl _ ih => exact .mark hl (ih hb)
  | real hop hstep hjump hbound _ ih => exact .real hop hstep hjump hbound (ih hb)

theorem congr {shapes' : Label → Shape} (h : Typed shapes bound s a t)
    (hshapes : ∀ l, l ∈ Assemble.marks a ∨ l ∈ Assemble.references a → shapes' l = shapes l) :
    Typed shapes' bound s a t := by
  induction h with
  | nil hbound => exact .nil hbound
  | line n _ ih => exact .line n (ih hshapes)
  | @mark s t ops l hl _ ih =>
    refine .mark ?_ (ih fun m hm => hshapes m ?_)
    · rw [hshapes l (.inl mem_cons_self), hl]
    · exact hm.imp (mem_cons_of_mem _) id
  | @real s jump next t op opcode ops hop hstep hjump hbound _ ih =>
    have hmarks : Assemble.marks (op :: ops) = Assemble.marks ops := by
      refine Assemble.marks_cons_of_ne (fun l hl => ?_) ops
      rw [hl] at hop
      cases hop
    refine .real hop hstep (fun o l hl => ?_) hbound (ih fun m hm => hshapes m ?_)
    · rw [hshapes l (.inr (Assemble.mem_references_iff.2 ⟨o, by rw [hl]; exact mem_cons_self⟩)),
        hjump o l hl]
    · refine hm.imp (fun hm => hmarks ▸ hm) fun hm => ?_
      obtain ⟨o, ho⟩ := Assemble.mem_references_iff.1 hm
      exact Assemble.mem_references_iff.2 ⟨o, mem_cons_of_mem _ ho⟩

end Typed

end Bytewright
