import Mathlib
import Bytewright.Stream.Assemble

/-!
# Layout of a stream

Only real entries of a stream take an instruction, so the place of a label is the number of real
entries in front of its mark.
-/

namespace Bytewright.Assemble

open List

/-! ### Size -/

/-- The number of instructions, marks and lines left out. -/
def size (ops : Stream) : Nat := ops.countP Op.isReal

variable {ops : Stream} {op : Op} {l : Label}

@[simp] theorem size_nil : size [] = 0 := rfl

@[simp] theorem size_append (a b : Stream) : size (a ++ b) = size a + size b :=
  countP_append

theorem size_cons_of_isReal (h : op.isReal = true) (ops : Stream) :
    size (op :: ops) = size ops + 1 :=
  countP_cons_of_pos h

theorem size_cons_of_not_isReal (h : op.isReal = false) (ops : Stream) :
    size (op :: ops) = size ops :=
  countP_cons_of_neg (by simp [h])

theorem isReal_eq_isSome_opcode (op : Op) : op.isReal = op.opcode.isSome := by
  cases op <;> rfl

theorem isReal_of_opcode {opcode : Opcode} (hop : op.opcode = some opcode) : op.isReal = true := by
  rw [isReal_eq_isSome_opcode, hop]
  rfl

theorem isReal_of_opcode_eq_none (hop : op.opcode = none) : op.isReal = false := by
  rw [isReal_eq_isSome_opcode, hop]
  rfl

theorem exists_opcode_of_isReal (h : op.isReal = true) : ∃ opcode, op.opcode = some opcode :=
  Option.isSome_iff_exists.1 ((isReal_eq_isSome_opcode op).symm.trans h)

theorem toNat_ofNat_le (n : Nat) : (UInt32.ofNat n).toNat ≤ n := by
  rw [UInt32.toNat_ofNat']
  exact Nat.mod_le _ _

/-! ### Marks and references -/

@[simp] theorem marks_nil : marks [] = [] := rfl

@[simp] theorem marks_append (a b : Stream) : marks (a ++ b) = marks a ++ marks b :=
  filterMap_append

@[simp] theorem marks_cons_mark (l : Label) (ops : Stream) :
    marks (.mark l :: ops) = l :: marks ops := rfl

theorem marks_cons_of_ne (h : ∀ l, op ≠ .mark l) (ops : Stream) :
    marks (op :: ops) = marks ops := by
  cases op with
  | mark l => exact absurd rfl (h l)
  | _ => rfl

theorem mem_marks_iff : l ∈ marks ops ↔ .mark l ∈ ops := by
  induction ops with
  | nil => simp
  | cons op ops ih =>
    cases op with
    | mark m => simp [ih]
    | _ => simp [marks_cons_of_ne, ih]

@[simp] theorem references_nil : references [] = [] := rfl

@[simp] theorem references_append (a b : Stream) :
    references (a ++ b) = references a ++ references b :=
  filterMap_append

theorem references_cons (op : Op) (ops : Stream) :
    references (op :: ops) = op.jumpTarget.toList ++ references ops := by
  rw [references, filterMap_cons]
  cases op.jumpTarget <;> rfl

theorem mem_references_iff : l ∈ references ops ↔ ∃ op, .jump op l ∈ ops := by
  simp only [references, mem_filterMap]
  constructor
  · rintro ⟨op, hop, hl⟩
    cases op with
    | jump o m =>
      cases hl
      exact ⟨o, hop⟩
    | _ => cases hl
  · rintro ⟨o, hop⟩
    exact ⟨.jump o l, hop, rfl⟩

/-! ### Places -/

theorem position?_cons_of_isReal (h : op.isReal = true) (l : Label) (index : Nat) (ops : Stream) :
    position? l index (op :: ops) = position? l (index + 1) ops := by
  cases op with
  | line | mark => cases h
  | _ => rfl

theorem position?_append (l : Label) (index : Nat) (a b : Stream) :
    position? l index (a ++ b) = (position? l index a).or (position? l (index + size a) b) := by
  induction a generalizing index with
  | nil => rfl
  | cons op a ih =>
    by_cases hreal : op.isReal = true
    · rw [cons_append, position?_cons_of_isReal hreal, position?_cons_of_isReal hreal, ih,
        size_cons_of_isReal hreal, Nat.add_assoc, Nat.add_comm 1]
    · have hsize := size_cons_of_not_isReal (Bool.eq_false_iff.2 hreal) a
      cases op with
      | line n =>
        rw [hsize]
        exact ih index
      | mark m =>
        rw [hsize, cons_append]
        by_cases hm : m = l
        · simp only [position?, if_pos hm, Option.some_or]
        · simp only [position?, if_neg hm]
          exact ih index
      | _ => exact absurd rfl hreal

theorem isSome_position?_iff {index : Nat} : (position? l index ops).isSome ↔ l ∈ marks ops := by
  induction ops generalizing index with
  | nil => simp [position?]
  | cons op ops ih =>
    cases op with
    | mark m =>
      by_cases hm : m = l
      · simp [position?, hm]
      · simp [position?, hm, Ne.symm hm, ih]
    | _ => simp [position?, marks_cons_of_ne, ih]

theorem position?_bounds {index place : Nat} (h : position? l index ops = some place) :
    index ≤ place ∧ place ≤ index + size ops := by
  induction ops generalizing index with
  | nil => cases h
  | cons op ops ih =>
    by_cases hreal : op.isReal = true
    · rw [position?_cons_of_isReal hreal] at h
      have := ih h
      rw [size_cons_of_isReal hreal]
      omega
    · rw [size_cons_of_not_isReal (Bool.eq_false_iff.2 hreal)]
      cases op with
      | line n => exact ih h
      | mark m =>
        by_cases hm : m = l
        · simp only [position?, if_pos hm, Option.some.injEq] at h
          omega
        · simp only [position?, if_neg hm] at h
          exact ih h
      | _ => exact absurd rfl hreal

/-! ### Labels in order -/

theorem firstRepeat?_eq_none_iff {α : Type} [BEq α] [LawfulBEq α] {seen xs : List α} :
    firstRepeat? seen xs = none ↔ xs.Nodup ∧ ∀ x ∈ xs, x ∉ seen := by
  induction xs generalizing seen with
  | nil => simp [firstRepeat?]
  | cons x xs ih =>
    by_cases hx : x ∈ seen
    · simp [firstRepeat?, hx]
    · simp only [firstRepeat?, contains_iff_mem, hx, if_false, ih, nodup_cons,
        mem_cons, not_or, forall_eq_or_imp, not_false_eq_true, true_and]
      constructor
      · rintro ⟨hnodup, hall⟩
        exact ⟨⟨fun hmem => (hall x hmem).1 rfl, hnodup⟩, fun y hy => (hall y hy).2⟩
      · rintro ⟨⟨hnotMem, hnodup⟩, hall⟩
        exact ⟨hnodup, fun y hy => ⟨fun h => hnotMem (h ▸ hy), hall y hy⟩⟩

theorem checkParameters_eq_ok_iff {args : List String} :
    checkParameters args = .ok () ↔ args.Nodup := by
  unfold checkParameters
  cases h : firstRepeat? [] args with
  | none => simpa using (firstRepeat?_eq_none_iff.1 h).1
  | some x =>
    have hnot : ¬args.Nodup := fun hnodup => by
      rw [firstRepeat?_eq_none_iff.2 ⟨hnodup, by simp⟩] at h
      cases h
    simpa using hnot

theorem checkLabels_eq_ok_iff :
    checkLabels ops = .ok () ↔
      (marks ops).Nodup ∧ ∀ l, l ∈ marks ops ↔ l ∈ references ops := by
  have hproblem : ops.findSome? (labelProblem? (marks ops) (references ops)) = none ↔
      ∀ l, l ∈ marks ops ↔ l ∈ references ops := by
    rw [findSome?_eq_none_iff]
    constructor
    · intro h l
      constructor
      · intro hl
        simpa [labelProblem?] using h _ (mem_marks_iff.1 hl)
      · intro hl
        obtain ⟨op, hop⟩ := mem_references_iff.1 hl
        simpa [labelProblem?] using h _ hop
    · intro h op hop
      cases op with
      | mark l => simpa [labelProblem?] using (h l).1 (mem_marks_iff.2 hop)
      | jump o l => simpa [labelProblem?] using (h l).2 (mem_references_iff.2 ⟨o, hop⟩)
      | _ => rfl
  unfold checkLabels
  cases hrepeat : firstRepeat? [] (marks ops) with
  | some l =>
    have hnot : ¬(marks ops).Nodup := fun hnodup => by
      rw [firstRepeat?_eq_none_iff.2 ⟨hnodup, by simp⟩] at hrepeat
      cases hrepeat
    simp [hnot]
  | none =>
    have hnodup := (firstRepeat?_eq_none_iff.1 hrepeat).1
    rw [← hproblem]
    cases ops.findSome? (labelProblem? (marks ops) (references ops)) with
    | none | some p => simp [hnodup]

end Bytewright.Assemble
