import Bytewright.Proofs.Shape.Code
import Bytewright.Proofs.Stream.Reassemble

/-!
# Looking up lines

A marker replaces the one at its own place and is dropped where it repeats the line before it;
neither changes the line of an instruction, and the entries stay in order, so a reader may stop at
the first one that lies beyond the instruction.
-/

namespace Bytewright

open Assemble OfCode

namespace Assemble

/-- The lines that a stream sets, in order. -/
def setLines (ops : Stream) : List UInt32 :=
  ops.filterMap fun
    | .line n => some n
    | _ => none

theorem lastLine_eq_getLast? (line : UInt32) (ops : Stream) :
    lastLine line ops = (setLines ops).getLast?.getD line := by
  induction ops generalizing line with
  | nil => rfl
  | cons op ops ih =>
    cases op with
    | line n =>
      have hlines : setLines (.line n :: ops) = n :: setLines ops := rfl
      rw [lastLine, ih, hlines, List.getLast?_cons, Option.getD_some]
    | _ => exact ih line

end Assemble

namespace Assembled

variable {fileName : String} {ops : Stream} {header : Header} {c : Code}
  (h : Assembled fileName ops header c) (hlength : c.code.length < 4294967296)
include h hlength

theorem pairwise_lines : (c.lines.map Prod.fst).Pairwise (· < ·) := by
  have hordered : Ordered c.lines := by
    rw [h.lines_eq]
    refine ordered_lineTable ⟨List.Pairwise.nil, fun e he => by cases he⟩ ?_
    rwa [Nat.zero_add, ← length_of_encode h.encode_eq]
  exact List.pairwise_map.2 (hordered.imp fun hlt => UInt32.lt_iff_toNat_lt.2 hlt)

theorem lineFor_size {front back : Stream} {op : Op} (hops : ops = front ++ op :: back)
    (hop : op.isReal = true) :
    c.lineFor (size front) = (setLines front).getLast?.getD header.firstLine := by
  have hsize : size (front ++ op :: back) < 4294967296 := by
    rwa [← hops, ← length_of_encode h.encode_eq]
  rw [CodeOf.lineFor, h.lines_eq, h.firstLine_eq, hops,
    lineIn_lineTable_append hop front back hsize, lastLine_eq_getLast?]

end Assembled

/-- The entries of the line table of an assembled stream are in order, and the line of an
instruction is the one that the stream set last before its operation, or the declared first line if
it set none. -/
theorem lineFor_is_last_line_set (fileName : String) (ops : Stream) (header : Header) (code : Code)
    (hcode : assemble fileName ops header = .ok code) (hlength : code.code.length < 4294967296) :
    (code.lines.map Prod.fst).Pairwise (· < ·) ∧
      ∀ i instr, code.code[i]? = some instr →
        ∃ front op back, ops = front ++ op :: back ∧ size front = i ∧
          op.opcode = some instr.opcode ∧
          code.lineFor i = (setLines front).getLast?.getD header.firstLine := by
  have h := assemble_eq_ok_iff.1 hcode
  refine ⟨h.pairwise_lines hlength, fun i instr hinstr => ?_⟩
  obtain ⟨op, -, -, hop, hopcode, -, -⟩ := getElem?_of_encode h.encode_eq hinstr
  obtain ⟨front, back, hops, htake⟩ := exists_split hop
  have hsize : size front = i := by
    have hle : i < (reals ops).length := (List.getElem?_eq_some_iff.1 hop).1
    rw [← length_reals, ← htake, List.length_take, Nat.min_eq_left hle.le]
  have hreal : op.isReal = true := by
    rw [isReal_eq_isSome_opcode, hopcode]
    rfl
  exact ⟨front, op, back, hops, hsize, hopcode, hsize ▸ h.lineFor_size hlength hops hreal⟩

def relined : Stream :=
  [.mark ⟨1⟩, .const .none, .line 4, .line 7, .const .none, .line 7, .jump .popJumpIfTrue ⟨0⟩,
   .line 9, .mark ⟨0⟩, .line 7, .jump .popJumpIfFalse ⟨1⟩, .line 9, .const (.int 1),
   .bare .returnValue, .line 3, .line 3]

def relinedUnit : Code where
  stackSize := 2
  flags := ⟨0x41⟩
  code := [⟨.loadConst, 0⟩, ⟨.loadConst, 0⟩, ⟨.jump .popJumpIfTrue, 3⟩,
    ⟨.jump .popJumpIfFalse, 0⟩, ⟨.loadConst, 1⟩, ⟨.bare .returnValue, 0⟩]
  fileName := "lines"
  name := "relined"
  firstLine := 2
  lines := [(1, 7), (3, 7), (4, 9), (6, 3)]
  consts := [.none, .int 1]

/-- A stream with repeated markers, several in front of one instruction and some behind the last
one. -/
theorem relined_lines :
    assemble "lines" relined { name := "relined", firstLine := 2 } = .ok relinedUnit ∧
      relinedUnit.code.length < 4294967296 ∧
      (relinedUnit.lines.map Prod.fst).Pairwise (· < ·) ∧
      ∀ i instr, relinedUnit.code[i]? = some instr →
        ∃ front op back, relined = front ++ op :: back ∧ size front = i ∧
          op.opcode = some instr.opcode ∧
          relinedUnit.lineFor i = (setLines front).getLast?.getD 2 := by
  have hcode : assemble "lines" relined { name := "relined", firstLine := 2 } =
      .ok relinedUnit := by
    cbv
  have hlength : relinedUnit.code.length < 4294967296 := by decide
  exact ⟨hcode, hlength, lineFor_is_last_line_set _ _ _ _ hcode hlength⟩

end Bytewright
