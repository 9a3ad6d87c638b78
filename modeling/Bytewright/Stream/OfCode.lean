import Bytewright.Stream.Error

/-!
# Taking code units apart

A code unit becomes a stream again: each place that a jump leads to gets a fresh label, marked in
front of the instruction there, and the entries of the line table become line markers.
-/

namespace Bytewright

namespace OfCode

/-- Labels by the place they stand for. -/
abbrev Targets := List (Nat × Label)

/-- Gives a label to each place that the instructions from `index` on jump to and that has none
yet.  Labels stay handed out when a jump leads outside of the `size` instructions. -/
def targetLabels (size : Nat) (index : Nat) (targets : Targets) (ls : Labels) :
    List Instruction → Except DecodeError Targets × Labels
  | [] => (.ok targets, ls)
  | i :: rest =>
    match i.target index with
    | none => targetLabels size (index + 1) targets ls rest
    | some target =>
      if size < target then (.error ⟨index, .jumpOutOfRange target⟩, ls)
      else if (targets.lookup target).isSome then targetLabels size (index + 1) targets ls rest
      else
        let (l, ls) := ls.fresh
        targetLabels size (index + 1) (targets ++ [(target, l)]) ls rest

/-- The symbolic form of an instruction at `index`. -/
def operation (c : Code) (targets : Targets) (index : Nat) (i : Instruction) :
    Except DecodeError Op :=
  match i.opcode with
  | .bare op => .ok (.bare op)
  | .loadConst =>
    match c.consts[i.arg.toNat]? with
    | some k => .ok (.const k)
    | none => .error ⟨index, .constOutOfRange i.arg⟩
  | .name op =>
    match (c.pool op.pool)[i.arg.toNat]? with
    | some x => .ok (.name op x)
    | none => .error ⟨index, .nameOutOfRange op.pool i.arg⟩
  | .count op => .ok (.count op i.arg)
  | .binaryOp =>
    match ArithOp.ofIndex? i.arg.toNat with
    | some op => .ok (.arith op)
    | none => .error ⟨index, .unknownOperator i.arg⟩
  | .compareOp =>
    match CompareOp.ofIndex? i.arg.toNat with
    | some op => .ok (.compare op)
    | none => .error ⟨index, .unknownComparison i.arg⟩
  | .call op =>
    let (args, kwds) := splitArgSpec i.arg
    .ok (.call op args kwds)
  | .jump op =>
    match (i.target index).bind fun target => targets.lookup target with
    | some l => .ok (.jump op l)
    | none => .error ⟨index, .unresolvedJump⟩

/-- The mark of the label at a place, if the place has one. -/
def markAt (targets : Targets) (index : Nat) : Stream :=
  ((targets.lookup index).map Op.mark).toList

/-- The line marker in front of an instruction: that of the last entry of the line table for it.
The first instruction always has one. -/
def lineAt (c : Code) (index : Nat) : Stream :=
  match c.lines.reverse.find? fun entry => entry.1.toNat == index with
  | some (_, n) => [.line n]
  | none => if index = 0 then [.line c.firstLine] else []

/-- The operations of the instructions from `index` on, with the marks in front of them. -/
def operations (c : Code) (targets : Targets) (index : Nat) :
    List Instruction → Except DecodeError Stream
  | [] => .ok []
  | i :: rest => do
    let op ← operation c targets index i
    let ops ← operations c targets (index + 1) rest
    return markAt targets index ++ lineAt c index ++ op :: ops

end OfCode

open OfCode in
/-- The stream of a code unit with labels from an allocator, and the allocator afterwards. -/
def CodeOf.toStream (c : Code) (ls : Labels) : Except DecodeError Stream × Labels :=
  match targetLabels c.code.length 0 [] ls c.code with
  | (.error e, ls) => (.error e, ls)
  | (.ok targets, ls) =>
    let opening : Stream := if c.code.isEmpty then [.line c.firstLine] else []
    let result := (operations c targets 0 c.code).map fun ops =>
      ops ++ opening ++ markAt targets c.code.length
    (result, ls)

end Bytewright
