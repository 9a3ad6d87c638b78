import Bytewright.Proofs.Machine.Agreement
import Bytewright.Proofs.Shape.Finish

/-!
# Frames that fit shapes

A handler is entered by a fitting frame wherever in its block an exception strikes.  In a fitting
frame no instruction breaks down, unless it calls a function that cannot be entered.
-/

namespace Bytewright

open List

variable {code : List Instruction} {place : Nat → Shape} {kinds left : List Kind} {vs : List Value}

/-! ### Shapes of stacks -/

inductive Underlies (code : List Instruction) (place : Nat → Shape) :
    List (List Kind) → List Value → List Block → Prop
  | nil : Underlies code place [] [] []
  | cons {kinds : List Kind} {under : List (List Kind)} {vs below : List Value} {b : Block}
      {outer : List Block} (hvs : Forall₂ Kind.Holds kinds vs)
      (hlevel : b.level = (vs ++ below).length)
      (hhandler : b.kind = .except →
        b.handler < code.length ∧ place b.handler = (⟨kinds, under⟩ : Shape).handler)
      (h : Underlies code place under below outer) :
      Underlies code place (kinds :: under) (vs ++ below) (b :: outer)

/-- The values on the stack are of the kinds that the shape says, between the levels of the blocks.
-/
def Shape.Describes (code : List Instruction) (place : Nat → Shape) (s : Shape)
    (stack : List Value) (blocks : List Block) : Prop :=
  ∃ vs below, stack = vs ++ below ∧ Forall₂ Kind.Holds s.top vs ∧
    Underlies code place s.under below blocks

theorem forall₂_holds_of_below (hvs : Forall₂ Kind.Holds kinds vs)
    (hleft : Forall₂ Kind.Below kinds left) : Forall₂ Kind.Holds left vs := by
  induction hvs generalizing left with
  | nil =>
    cases hleft
    exact .nil
  | cons hv _ ih =>
    cases hleft with
    | cons hk hleft => exact .cons (hk.holds hv) (ih hleft)

theorem truncate_append (vs below : List Value) : truncate below.length (vs ++ below) = below := by
  rw [truncate, length_append, Nat.add_sub_cancel, drop_left]

namespace Shape

variable {s : Shape} {stack : List Value} {blocks : List Block}

section

variable (h : s.Describes code place stack blocks)
include h

theorem Describes.length_le : s.top.length ≤ stack.length := by
  obtain ⟨vs, below, rfl, hvs, -⟩ := h
  rw [length_append, hvs.length_eq]
  exact Nat.le_add_right _ _

variable {n : Nat}

theorem Describes.exists_getElem? {k : Kind} (hk : s.top[n]? = some k) :
    ∃ v, stack[n]? = some v ∧ k.Holds v := by
  obtain ⟨vs, below, rfl, hvs, -⟩ := h
  obtain ⟨v, hv, hholds⟩ := getElem?_of_forall₂ hvs.flip hk
  exact ⟨v, List.getElem?_append_left (List.getElem?_eq_some_iff.1 hv).1 ▸ hv, hholds⟩

theorem Describes.drop (hn : n ≤ s.top.length) :
    (⟨s.top.drop n, s.under⟩ : Shape).Describes code place (stack.drop n) blocks := by
  obtain ⟨vs, below, rfl, hvs, hbelow⟩ := h
  refine ⟨vs.drop n, below, ?_, forall₂_drop n hvs, hbelow⟩
  rw [drop_append_of_le_length (hvs.length_eq ▸ hn)]

theorem Describes.append (hvs : Forall₂ Kind.Holds kinds vs) :
    (⟨kinds ++ s.top, s.under⟩ : Shape).Describes code place (vs ++ stack) blocks := by
  obtain ⟨ws, below, rfl, hws, hbelow⟩ := h
  exact ⟨vs ++ ws, below, (append_assoc ..).symm, rel_append hvs hws, hbelow⟩

theorem Describes.inside {b : Block} (hlevel : b.level = stack.length)
    (hhandler : b.kind = .except → b.handler < code.length ∧ place b.handler = s.handler) :
    s.inside.Describes code place stack (b :: blocks) := by
  obtain ⟨vs, below, rfl, hvs, hbelow⟩ := h
  exact ⟨[], vs ++ below, rfl, .nil, .cons hvs hlevel hhandler hbelow⟩

end

theorem Describes.outside (h : s.inside.Describes code place stack blocks) :
    ∃ b outer, blocks = b :: outer ∧ s.Describes code place (truncate b.level stack) outer := by
  obtain ⟨vs, below, rfl, -, hbelow⟩ := h
  cases hbelow with
  | @cons _ _ ws below b outer hws hlevel _ hbelow =>
    refine ⟨b, outer, rfl, ws, below, ?_, hws, hbelow⟩
    rw [hlevel, truncate_append]

theorem Describes.findHandler (h : s.Describes code place stack blocks) {handler : Nat}
    {stack' : List Value} {outer : List Block}
    (hfind : Frame.findHandler? blocks stack = some (handler, stack', outer)) :
    ∃ t : Shape, handler < code.length ∧ place handler = t.handler ∧
      t.Describes code place stack' outer := by
  obtain ⟨vs, below, rfl, -, hbelow⟩ := h
  generalize s.under = under at hbelow
  induction hbelow generalizing vs with
  | nil => cases hfind
  | @cons kinds under ws below b blocks hws hlevel hhandler hbelow ih =>
    unfold Frame.findHandler? at hfind
    rw [hlevel, truncate_append] at hfind
    cases hkind : b.kind with
    | except =>
      simp only [hkind] at hfind
      cases hfind
      obtain ⟨hlt, hplace⟩ := hhandler hkind
      exact ⟨⟨kinds, under⟩, hlt, hplace, ws, below, rfl, hws, hbelow⟩
    | loop =>
      simp only [hkind] at hfind
      exact ih ws hfind

/-! ### Instructions at a shape -/

variable {op : Opcode} {arg : UInt32} {j t : Shape}

theorem Step.effect_le (h : Step op arg s j t) : (op.effect arg).1 ≤ s.top.length := by
  cases h with
  | fall taken left rest _ _ htaken _ _ | stop taken rest _ _ htaken _ =>
    rw [length_append]
    omega
  | ret hop =>
    subst hop
    exact le_rfl
  | except hop | loop hop | leave hop =>
    subst hop
    exact Nat.zero_le _

theorem Step.exists_taken (h : Step op arg s j t) (hblock : op.movesBlock = false)
    (hreturn : op ≠ .bare .returnValue) :
    op.Finds arg (s.top.take (op.effect arg).1) ∧ j = ⟨s.top.drop (op.effect arg).1, s.under⟩ ∧
      (op.endsFlow = false → ∃ left, Forall₂ Kind.Below (op.leaves arg) left ∧
        t = ⟨left ++ s.top.drop (op.effect arg).1, s.under⟩) := by
  cases h with
  | fall taken left rest _ _ htaken hfinds hleft =>
    dsimp only
    rw [← htaken, take_left, drop_left]
    exact ⟨hfinds, rfl, fun _ => ⟨left, hleft, rfl⟩⟩
  | stop taken rest hflow _ htaken hfinds =>
    dsimp only
    rw [← htaken, take_left, drop_left]
    refine ⟨hfinds, rfl, fun hflow' => ?_⟩
    rw [hflow] at hflow'
    cases hflow'
  | ret hop => exact absurd hop hreturn
  | except hop | loop hop | leave hop =>
    subst hop
    cases hblock

theorem Step.setupExcept (h : Step (.jump .setupExcept) arg s j t) :
    j = s.handler ∧ t = s.inside := by
  cases h with
  | fall _ _ _ _ h | stop _ _ h | ret h | loop h | leave h => cases h
  | except => exact ⟨rfl, rfl⟩

theorem Step.setupLoop (h : Step (.jump .setupLoop) arg s j t) : t = s.inside := by
  cases h with
  | fall _ _ _ _ h | stop _ _ h | ret h | except h | leave h => cases h
  | loop => rfl

theorem Step.popBlock (h : Step (.bare .popBlock) arg s j t) : s = t.inside := by
  cases h with
  | fall _ _ _ _ h | stop _ _ h | ret h | except h | loop h => cases h
  | leave => rfl

end Shape

/-! ### Frames -/

namespace Frame

variable {c : Code} {bound : Nat} {f g h : Frame} {ins : Instruction} {s : Shape}

/-- Stack and blocks are as the shape of the place says. -/
structure Fits (c : Code) (place : Nat → Shape) (f : Frame) : Prop where
  code_eq : f.code = c
  ip_lt : f.ip < c.code.length
  shape : (place f.ip).Describes c.code place f.stack f.blocks

theorem fits_of_bind {k : Function} {args : List Value} {kwargs : Keywords}
    {s s' : Store} (hsound : c.Sound place) (hcode : k.code = c)
    (hbind : k.bind args kwargs s = .ok (f, s')) : f.Fits c place := by
  obtain ⟨hcode', hstack, hblocks, -, hip⟩ := FunctionOf.bind_eq_ok hbind
  refine ⟨hcode'.trans hcode, hip ▸ hsound.pos, ?_⟩
  rw [hip, hsound.start, hstack, hblocks]
  exact ⟨[], [], rfl, .nil, .nil⟩

theorem Turns.describes {ip taken : Nat} (h : f.Turns g ip taken kinds)
    (hf : s.Describes code place f.stack f.blocks) (htaken : taken ≤ s.top.length)
    (hleft : Forall₂ Kind.Below kinds left) :
    (⟨left ++ s.top.drop taken, s.under⟩ : Shape).Describes code place g.stack g.blocks := by
  obtain ⟨vs, hvs, hstack⟩ := h.stack_eq
  rw [hstack, h.blocks_eq]
  exact (hf.drop htaken).append (forall₂_holds_of_below hvs hleft)

theorem Step.fits (h : f.Step ins g) (hshaped : Shaped c.code bound place) (hf : f.Fits c place)
    (hi : c.code[f.ip]? = some ins) : g.Fits c place := by
  obtain ⟨jump, hstep, htarget⟩ := hshaped.step f.ip ins hi
  cases h with
  | fall hflow hblock h =>
    have hreturn : ins.opcode ≠ .bare .returnValue := fun heq => by rw [heq] at hflow; cases hflow
    obtain ⟨left, hleft, hnext⟩ := (hstep.exists_taken hblock hreturn).2.2 hflow
    refine ⟨h.code_eq.trans hf.code_eq, ?_, ?_⟩
    · rw [h.ip_eq]
      exact hshaped.next_lt f.ip ins hi hflow
    · rw [h.ip_eq, hnext]
      exact h.describes hf.shape hstep.effect_le hleft
  | jump hblock ht _ h =>
    obtain ⟨op, hop⟩ := Instruction.exists_jump_of_target ht
    obtain ⟨hlt, hplace⟩ := htarget _ ht
    obtain ⟨-, hjump, -⟩ := hstep.exists_taken hblock (by simp [hop])
    refine ⟨h.code_eq.trans hf.code_eq, h.ip_eq ▸ hlt, ?_⟩
    rw [h.ip_eq, hplace, hjump]
    exact h.describes hf.shape hstep.effect_le .nil
  | @enter kind target hop ht h =>
    subst h
    have hflow : ins.opcode.endsFlow = false := by
      rw [hop]
      cases kind <;> rfl
    refine ⟨hf.code_eq, hshaped.next_lt f.ip ins hi hflow, ?_⟩
    rw [hop] at hstep
    cases kind with
    | except =>
      obtain ⟨rfl, hnext⟩ := hstep.setupExcept
      rw [hnext]
      exact hf.shape.inside rfl fun _ => htarget target ht
    | loop =>
      rw [hstep.setupLoop]
      exact hf.shape.inside rfl fun hkind => by cases hkind
  | @leave b outer hop hb h =>
    subst h
    have hflow : ins.opcode.endsFlow = false := by
      rw [hop]
      rfl
    refine ⟨hf.code_eq, hshaped.next_lt f.ip ins hi hflow, ?_⟩
    rw [hop] at hstep
    have hshape := hf.shape
    rw [hstep.popBlock] at hshape
    obtain ⟨b', outer', hblocks, hshape⟩ := hshape.outside
    rw [hb] at hblocks
    cases hblocks
    exact hshape

theorem Interrupted.exists_describes (h : f.Interrupted ins g) (hshaped : Shaped c.code bound place)
    (hf : f.Fits c place) (hi : c.code[f.ip]? = some ins) :
    ∃ s : Shape, s.Describes c.code place g.stack g.blocks := by
  obtain ⟨jump, hstep, -⟩ := hshaped.step f.ip ins hi
  obtain ⟨n, hn, hstack⟩ := h.stack_eq
  rw [hstack, h.blocks_eq]
  exact ⟨_, hf.shape.drop (hn.trans hstep.effect_le)⟩

theorem fits_of_enterHandler? {e : Exception} {entries : List TraceEntry} {traceback : Value}
    (hcode : g.code = c) (hg : s.Describes c.code place g.stack g.blocks)
    (hh : g.enterHandler? e entries traceback = some h) : h.Fits c place := by
  unfold enterHandler? at hh
  split at hh
  · cases hh
  · next handler stack' outer hfind =>
    cases hh
    obtain ⟨t, hlt, hplace, hdescribes⟩ := hg.findHandler hfind
    refine ⟨hcode, hlt, ?_⟩
    show (place handler).Describes _ _ _ _
    rw [hplace]
    have hpushed : Forall₂ Kind.Holds [.any, .any, .any]
        [.exceptionType e.kind, .exception e, traceback] :=
      .cons trivial (.cons trivial (.cons trivial .nil))
    exact hdescribes.append hpushed

theorem Fits.exists_function_of_breakdown (hf : f.Fits c place) (hsound : c.Sound place)
    (hi : c.code[f.ip]? = some ins) {cause : Fatal} (h : f.Breakdown ins cause) :
    ∃ k, .function k ∈ f.stack := by
  obtain ⟨bound, hshaped⟩ := hsound.shaped
  obtain ⟨jump, hstep, htarget⟩ := hshaped.step f.ip ins hi
  have hresolves := hsound.resolves f.ip ins hi
  obtain ⟨op, arg⟩ := ins
  have hcode := hf.code_eq
  subst hcode
  cases cause with
  | constRange n =>
    obtain ⟨rfl, hnone⟩ := h
    exact absurd hresolves (Nat.not_lt.2 (getElem?_eq_none_iff.1 hnone))
  | nameRange n =>
    obtain ⟨o, rfl, hnone⟩ := h
    have hlt : arg.toNat < (f.code.pools.get o.pool).length := hresolves
    rw [CodeOf.get_pools] at hlt
    exact absurd hlt (Nat.not_lt.2 (getElem?_eq_none_iff.1 hnone))
  | unknownArith n | unknownCompare n =>
    obtain ⟨rfl, hnone⟩ := h
    simp [Instruction.Resolves, hnone] at hresolves
  | noDict n | noIterator n =>
    obtain ⟨rfl, hnone⟩ := h
    have hfinds : ((place f.ip).top.take _)[_]? = some _ := (hstep.exists_taken rfl (by simp)).1
    rw [getElem?_take_of_lt (by simp [Opcode.effect])] at hfinds
    obtain ⟨v, hv, hkind⟩ := hf.shape.exists_getElem? hfinds
    exact absurd hkind (hnone v hv)
  | notCode n =>
    obtain rfl : op = _ := h
    exact (hstep.exists_taken rfl (by simp)).1.elim
  | badRaise n =>
    obtain ⟨rfl, hlt⟩ := h
    have hfinds : arg.toNat ≤ 3 := (hstep.exists_taken rfl (by simp)).1
    exact absurd hlt (Nat.not_lt.2 hfinds)
  | noBlock n =>
    obtain ⟨rfl, hnone⟩ := h
    have hshape := hf.shape
    rw [hstep.popBlock] at hshape
    obtain ⟨b, outer, hblocks, -⟩ := hshape.outside
    rw [hnone] at hblocks
    cases hblocks
  | badJump n =>
    obtain ⟨target, ht, hlt⟩ := h
    have := (htarget target ht).1
    omega
  | tooFewLocals name slots locals =>
    obtain ⟨-, k, hk⟩ := h
    exact ⟨k, mem_of_getElem? hk⟩
  | _ => exact h.elim

end Frame

end Bytewright
