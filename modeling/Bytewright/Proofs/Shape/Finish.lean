import Bytewright.Proofs.Shape.Code
import Bytewright.Proofs.Stream.Reassemble

/-!
# Finished streams

A finished stream is accepted by the assembler, and the unit it becomes has shapes for its
instructions and finds all operands that they name.
-/

namespace Bytewright

open Assemble OfCode

/-! ### Operands -/

/-- The operand of the instruction is in the pool. -/
def Instruction.Resolves (i : Instruction) (p : Pools) : Prop :=
  match i.opcode with
  | .loadConst => i.arg.toNat < p.consts.length
  | .name op => i.arg.toNat < (p.get op.pool).length
  | .binaryOp => (ArithOp.ofIndex? i.arg.toNat).isSome
  | .compareOp => (CompareOp.ofIndex? i.arg.toNat).isSome
  | _ => True

theorem resolves_of_argument {ops : Stream} {index : Nat} {p p' last : Pools} {op : Op}
    {i : Instruction} (hop : op.opcode = some i.opcode)
    (harg : argument ops index p op = .ok (i.arg, p')) (hlast : p'.Upto last) :
    i.Resolves last := by
  obtain ⟨opcode, arg⟩ := i
  cases op with
  | line | mark => cases hop
  | const c =>
    cases hop
    obtain ⟨n, k, hn, hk⟩ := interned_intern Const.sameAs p.consts c
    rw [argument, Pools.const_eq, hn] at harg
    cases harg
    exact (toNat_ofNat_le n).trans_lt (hk.lt_length.trans_le hlast.consts.length_le)
  | name o x =>
    cases hop
    obtain ⟨n, y, hn, hy⟩ := interned_intern (· == ·) (p.get o.pool) x
    rw [argument, Pools.name_eq, hn] at harg
    cases harg
    have hle := (hlast.names o.pool).length_le
    rw [Pools.get_set_self] at hle
    exact (toNat_ofNat_le n).trans_lt (hy.lt_length.trans_le hle)
  | arith o | compare o =>
    cases hop
    cases harg
    first
    | exact Option.isSome_of_eq_some (ArithOp.ofIndex?_index o)
    | exact Option.isSome_of_eq_some (CompareOp.ofIndex?_index o)
  | bare o | count o n | call o args kwds | jump o l =>
    cases hop
    trivial

/-! ### Finished streams -/

/-- A stream that has shapes from the empty stack on, and labels of its own. -/
structure Finished (bound : Nat) (ops : Stream) : Prop where
  nodup : (marks ops).Nodup
  marked : ∀ l, l ∈ marks ops ↔ l ∈ references ops
  forward : Forward true ops
  typed : ∃ shapes t, Typed shapes bound ⟨[], []⟩ ops t
  returns : ∃ front, ops = front ++ [.bare .returnValue]

theorem Piece.finished {loops : Bool} {first next : Nat} {a : Stream}
    (h : Piece loops first next [] [.any] a) : Finished (size a) (a ++ [.bare .returnValue]) where
  nodup := by simpa [marks] using h.nodup
  marked l := by simpa [marks, references, Op.jumpTarget] using h.marked l
  forward := by
    have hforward : Forward true a := by
      cases loops with
      | false => exact h.forward.of_all
      | true => exact h.forward
    exact hforward.append (.cons_of_ne (by simp) trivial)
  typed := by
    obtain ⟨own, -, htyped⟩ := h.typed (fun _ => ⟨[], []⟩) [] [] (size a) (Nat.zero_add _).le
    have hreturn : Typed own (size a) ⟨[.any], []⟩ [.bare .returnValue] ⟨[], []⟩ := by
      refine .plain (j := default) rfl (by simp) (.ret rfl) ?_ (.nil (Nat.zero_le _))
      simpa [Shape.depth] using h.growth
    exact ⟨own, _, htyped.append hreturn⟩
  returns := ⟨a, rfl⟩

/-! ### Sound units -/

/-- The places of the unit have these shapes, and all operands are found. -/
structure CodeOf.Sound (c : Code) (place : Nat → Shape) : Prop where
  start : place 0 = ⟨[], []⟩
  pos : 0 < c.code.length
  shaped : ∃ bound, Shaped c.code bound place
  resolves : ∀ (ip : Nat) (i : Instruction), c.code[ip]? = some i → i.Resolves c.pools
  slots : c.argumentSlots ≤ c.varNames.length

theorem exists_encode_of_forward {ops : Stream} (hnodup : (marks ops).Nodup)
    (hmarked : ∀ l, l ∈ marks ops ↔ l ∈ references ops) (hforward : Forward true ops) (p : Pools) :
    ∃ code last, encode ops 0 p ops = .ok (code, last) := by
  refine exists_encode p fun n o l hl => ?_
  have hmem : l ∈ marks ops := (hmarked l).2 (mem_references_reals.2 ⟨o, List.mem_of_getElem? hl⟩)
  obtain ⟨q, hq⟩ := Option.isSome_iff_exists.1 (isSome_position?_iff.2 hmem)
  refine ⟨q, hq, fun hrel => ?_⟩
  obtain ⟨q', hq', hlt⟩ := (forward_iff 0 hnodup).1 hforward n o l hl (.inr hrel)
  rw [hq, Option.some.injEq] at hq'
  exact hq' ▸ hlt

theorem Finished.exists_assemble {bound : Nat} {ops : Stream} {header : Header}
    (h : Finished bound ops) (fileName : String) (hbound : bound < 4294967296)
    (hsize : size ops < 4294967296) (hargs : header.args.Nodup) (hvarArgs : header.varArgs = false)
    (hvarKeywords : header.varKeywords = false) (hmax : header.maxStackSize = none) :
    ∃ c, assemble fileName ops header = .ok c ∧ ∃ place, c.Sound place := by
  obtain ⟨code, last, hencode⟩ :=
    exists_encode_of_forward h.nodup h.marked h.forward header.pools
  obtain ⟨shapes, t, htyped⟩ := h.typed
  obtain ⟨place, hstart, -, hplaced⟩ := htyped.exists_placed 0
  obtain ⟨front, rfl⟩ := h.returns
  have hshaped : Shaped code bound place := shaped_of_encode hplaced hsize hencode
  have hpos : 0 < code.length := by
    rw [length_of_encode hencode, size_append]
    exact Nat.succ_pos _
  obtain ⟨n, hn⟩ := hshaped.check_eq_ok hpos hstart hbound
  have hprefix : header.args <+: last.varNames := (upto_of_encode hencode).names .locals
  let c : Code := {
    argCount := UInt32.ofNat (argCount header)
    numLocals := UInt32.ofNat last.varNames.length
    stackSize := n
    flags := flags (front ++ [.bare .returnValue]) header last.freeVars
    code
    consts := last.consts
    names := last.names
    varNames := last.varNames
    freeVars := last.freeVars
    fileName
    name := header.name
    firstLine := header.firstLine
    lines := lineTable 0 [] (front ++ [.bare .returnValue])
    docString := header.docString }
  have hstack : stackSize code header.maxStackSize = .ok n := by rw [stackSize, hn, hmax]
  have hassembled : Assembled fileName (front ++ [.bare .returnValue]) header c :=
    ⟨checkLabels_eq_ok_iff.2 ⟨h.nodup, h.marked⟩, hargs, hencode, hstack, rfl, rfl, rfl, rfl,
      rfl, rfl,
      rfl, rfl⟩
  refine ⟨c, assemble_eq_ok_iff.2 hassembled, place, hstart, hpos, ⟨bound, hshaped⟩,
    fun ip i hi => ?_, ?_⟩
  · obtain ⟨op, q, q', -, hop, harg, hlast⟩ := getElem?_of_encode hencode hi
    exact resolves_of_argument hop harg hlast
  · obtain ⟨hrest, hextra, -⟩ := contains_flags (front ++ [.bare .returnValue]) header last.freeVars
    have hcount : argCount header = header.args.length := by
      rw [argCount, hvarArgs, hvarKeywords]
      rfl
    have hle := hprefix.length_le
    have hnat := toNat_ofNat_le (argCount header)
    rw [CodeOf.argumentSlots, CodeOf.takesRest, CodeOf.takesExtra, hrest, hextra, hvarArgs,
      hvarKeywords]
    show (UInt32.ofNat (argCount header)).toNat + 0 + 0 ≤ last.varNames.length
    omega

end Bytewright
