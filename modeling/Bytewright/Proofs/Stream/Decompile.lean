import Bytewright.Proofs.Stream.Encoding

/-!
# The labels of a decompiled unit

In the stream of a unit a label is marked at its place, once, and the labels of the stream are in
order.
-/

namespace Bytewright.OfCode

open Assemble List

/-! ### Places that are jumped to -/

/-- Some instruction jumps to the place. -/
def Leads (index : Nat) (code : List Instruction) (place : Nat) : Prop :=
  ∃ (k : Nat) (i : Instruction), code[k]? = some i ∧ i.target (index + k) = some place

@[simp] theorem not_leads_nil (index place : Nat) : ¬Leads index [] place := by
  rintro ⟨k, i, hi, -⟩
  cases hi

variable {place : Nat} {l : Label} {i : Instruction} {op : Op}

theorem leads_cons {index : Nat} {code : List Instruction} :
    Leads index (i :: code) place ↔
      i.target index = some place ∨ Leads (index + 1) code place := by
  constructor
  · rintro ⟨k, j, hj, hplace⟩
    cases k with
    | zero =>
      cases hj
      exact .inl hplace
    | succ k =>
      refine .inr ⟨k, j, hj, ?_⟩
      rwa [Nat.add_assoc, Nat.add_comm 1]
  · rintro (hplace | ⟨k, j, hj, hplace⟩)
    · exact ⟨0, i, rfl, hplace⟩
    · refine ⟨k + 1, j, hj, ?_⟩
      rwa [Nat.add_assoc, Nat.add_comm 1] at hplace

theorem exists_position?_of_leads {ops rest : Stream} {index : Nat} {p last : Pools}
    {code : List Instruction} (hsize : size ops < 4294967296)
    (h : encode ops index p rest = .ok (code, last)) (hplace : Leads index code place) :
    ∃ l ∈ references rest, position? l 0 ops = some place := by
  have hmono {op : Op} {rest : Stream} (h : ∃ l ∈ references rest, position? l 0 ops = some place) :
      ∃ l ∈ references (op :: rest), position? l 0 ops = some place := by
    obtain ⟨l, hl, hposition⟩ := h
    obtain ⟨o, ho⟩ := mem_references_iff.1 hl
    exact ⟨l, mem_references_iff.2 ⟨o, mem_cons_of_mem _ ho⟩, hposition⟩
  induction h using encode_induction with
  | nil => exact absurd hplace (not_leads_nil _ place)
  | marker _ _ ih => exact hmono (ih hplace)
  | @real _ _ _ op _ _ _ _ _ hop harg _ ih =>
    rcases leads_cons.1 hplace with hhere | hlater
    · cases op with
      | jump o l =>
        cases hop
        obtain ⟨place', hposition, htarget⟩ := exists_position?_of_argument hsize harg
        rw [hhere] at htarget
        cases htarget
        exact ⟨l, mem_references_iff.2 ⟨o, mem_cons_self⟩, hposition⟩
      | line | mark => cases hop
      | _ =>
        cases hop
        cases hhere
    · exact hmono (ih hlater)

/-! ### Handing out labels -/

/-- The places in `P`, and no others, have labels, each a new one of its own. -/
structure Labelling (P : Nat → Prop) (first : Nat) (targets : Targets) (ls : Labels) : Prop where
  isSome_iff : ∀ place, (targets.lookup place).isSome ↔ P place
  inj : ∀ a b l, targets.lookup a = some l → targets.lookup b = some l → a = b
  bounds : ∀ place l, targets.lookup place = some l → first ≤ l.id ∧ l.id < ls.allocated
  le : first ≤ ls.allocated

theorem labelling_nil (ls : Labels) : Labelling (fun _ => False) ls.allocated [] ls where
  isSome_iff := by simp
  inj a b l h := by cases h
  bounds place l h := by cases h
  le := le_rfl

theorem lookup_append_singleton (targets : Targets) (place : Nat) (l : Label) (a : Nat) :
    (targets ++ [(place, l)]).lookup a =
      (targets.lookup a).or (if a = place then some l else none) := by
  rw [lookup_append]
  by_cases h : a = place
  · simp [h]
  · simp [List.lookup, h, beq_eq_false_iff_ne.2 h]

variable {P : Nat → Prop} {first : Nat} {targets : Targets} {ls : Labels}

section

variable (h : Labelling P first targets ls)
include h

theorem Labelling.congr {Q : Nat → Prop}
    (hiff : ∀ place, P place ↔ Q place) : Labelling Q first targets ls :=
  { h with isSome_iff := fun place => (h.isSome_iff place).trans (hiff place) }

theorem Labelling.push (hnone : targets.lookup place = none) :
    Labelling (fun a => P a ∨ a = place) first (targets ++ [(place, ls.fresh.1)]) ls.fresh.2 := by
  -- a label is one of the table or the fresh one, and the fresh one is beyond the table
  have hlookup : ∀ a l, (targets ++ [(place, ls.fresh.1)]).lookup a = some l →
      targets.lookup a = some l ∨ (a = place ∧ l = ls.fresh.1) := by
    intro a l hl
    rw [lookup_append_singleton] at hl
    by_cases ha : a = place
    · subst ha
      simp only [hnone, if_true, Option.none_or, Option.some.injEq] at hl
      exact .inr ⟨rfl, hl.symm⟩
    · rw [if_neg ha, Option.or_none] at hl
      exact .inl hl
  have hfresh : ∀ a, targets.lookup a ≠ some ls.fresh.1 := fun a ha =>
    absurd (h.bounds a _ ha).2 (lt_irrefl _)
  refine ⟨fun a => ?_, fun a b l ha hb => ?_, fun a l ha => ?_, h.le.trans (Nat.le_succ _)⟩
  · rw [lookup_append_singleton, Option.isSome_or, Bool.or_eq_true, h.isSome_iff]
    by_cases ha : a = place
    · simp [ha]
    · simp [ha]
  · rcases hlookup a l ha with ha' | ⟨ha', hl⟩
    · rcases hlookup b l hb with hb' | ⟨-, hl⟩
      · exact h.inj a b l ha' hb'
      · exact absurd (hl ▸ ha') (hfresh a)
    · rcases hlookup b l hb with hb' | ⟨hb', -⟩
      · exact absurd (hl ▸ hb') (hfresh b)
      · rw [ha', hb']
  · rcases hlookup a l ha with ha | ⟨rfl, rfl⟩
    · obtain ⟨hfirst, hlt⟩ := h.bounds a l ha
      exact ⟨hfirst, hlt.trans (Nat.lt_succ_self _)⟩
    · exact ⟨h.le, Nat.lt_succ_self _⟩

theorem Labelling.targetLabels {size index : Nat} {code : List Instruction}
    (hsize : ∀ place, Leads index code place → place ≤ size) :
    ∃ targets' ls', OfCode.targetLabels size index targets ls code = (.ok targets', ls') ∧
      Labelling (fun a => P a ∨ Leads index code a) first targets' ls' := by
  induction code generalizing index P targets ls with
  | nil => exact ⟨targets, ls, rfl, h.congr fun place => by simp⟩
  | cons i code ih =>
    have hlater : ∀ place, Leads (index + 1) code place → place ≤ size := fun place hplace =>
      hsize place (leads_cons.2 (.inr hplace))
    cases htarget : i.target index with
    | none =>
      obtain ⟨targets', ls', heq, h'⟩ := ih h hlater
      refine ⟨targets', ls', ?_, h'.congr fun place => by simp [leads_cons, htarget]⟩
      simpa only [OfCode.targetLabels, htarget] using heq
    | some place =>
      have hle : ¬size < place := Nat.not_lt.2 (hsize place (leads_cons.2 (.inl htarget)))
      cases hlookup : targets.lookup place with
      | some l =>
        obtain ⟨targets', ls', heq, h'⟩ := ih h hlater
        have hP : P place := (h.isSome_iff place).1 (by rw [hlookup]; rfl)
        refine ⟨targets', ls', ?_, h'.congr fun a => ?_⟩
        · simpa only [OfCode.targetLabels, htarget, if_neg hle, hlookup, Option.isSome_some,
            if_true] using heq
        · rw [leads_cons, htarget, Option.some.injEq]
          constructor
          · rintro (ha | ha)
            · exact .inl ha
            · exact .inr (.inr ha)
          · rintro (ha | rfl | ha)
            · exact .inl ha
            · exact .inl hP
            · exact .inr ha
      | none =>
        obtain ⟨targets', ls', heq, h'⟩ := ih (h.push hlookup) hlater
        refine ⟨targets', ls', ?_, h'.congr fun a => ?_⟩
        · simpa only [OfCode.targetLabels, htarget, if_neg hle, hlookup, Option.isSome_none,
            Bool.false_eq_true, if_false] using heq
        · rw [leads_cons, htarget, Option.some.injEq, or_assoc, eq_comm]

end

theorem exists_labelling {code : List Instruction} (ls : Labels)
    (hsize : ∀ place, Leads 0 code place → place ≤ code.length) :
    ∃ targets ls', OfCode.targetLabels code.length 0 [] ls code = (.ok targets, ls') ∧
      Labelling (Leads 0 code) ls.allocated targets ls' := by
  obtain ⟨targets, ls', heq, h⟩ := (labelling_nil ls).targetLabels hsize
  exact ⟨targets, ls', heq, h.congr fun place => by simp⟩

/-! ### Marks -/

theorem opcode_of_operation {c : Code} {index : Nat} (h : operation c targets index i = .ok op) :
    op.opcode = some i.opcode := by
  obtain ⟨opcode, arg⟩ := i
  cases opcode with
  | bare o | count o | call o =>
    cases h
    rfl
  | loadConst | name o | binaryOp | compareOp | jump o =>
    simp only [operation] at h
    split at h
    · cases h
      rfl
    · cases h

theorem isReal_of_operation {c : Code} {index : Nat} (h : operation c targets index i = .ok op) :
    op.isReal = true :=
  isReal_of_opcode (opcode_of_operation h)

theorem lineAt_eq_nil_or (c : Code) (index : Nat) :
    lineAt c index = [] ∨ ∃ n, lineAt c index = [.line n] := by
  rw [lineAt]
  split
  · exact .inr ⟨_, rfl⟩
  · split
    · exact .inr ⟨_, rfl⟩
    · exact .inl rfl

theorem size_markAt (index : Nat) : size (markAt targets index) = 0 := by
  rw [markAt]
  cases targets.lookup index <;> rfl

theorem size_lineAt (c : Code) (index : Nat) : size (lineAt c index) = 0 := by
  rcases lineAt_eq_nil_or c index with h | ⟨n, h⟩ <;> rw [h] <;> rfl

theorem marks_markAt (index : Nat) : marks (markAt targets index) =
    (targets.lookup index).toList := by
  rw [markAt]
  cases targets.lookup index <;> rfl

theorem marks_lineAt (c : Code) (index : Nat) : marks (lineAt c index) = [] := by
  rcases lineAt_eq_nil_or c index with h | ⟨n, h⟩ <;> rw [h] <;> rfl

theorem marks_cons_of_isReal (h : op.isReal = true) (ops : Stream) :
    marks (op :: ops) = marks ops := by
  refine marks_cons_of_ne (fun l hl => ?_) ops
  rw [hl] at h
  cases h

variable {c : Code} {index : Nat} {code : List Instruction} {ops : Stream}

section

variable (h : operations c targets index code = .ok ops)
include h

theorem size_operations : size ops = code.length := by
  induction code generalizing index ops with
  | nil =>
    cases h
    rfl
  | cons i code ih =>
    obtain ⟨op, tail, hop, htail, rfl⟩ := operations_cons_eq_ok_iff.1 h
    rw [size_append, size_append, size_markAt, size_lineAt,
      size_cons_of_isReal (isReal_of_operation hop), ih htail, length_cons]
    omega

theorem marks_operations :
    marks ops = (List.range' index code.length).filterMap fun place => targets.lookup place := by
  induction code generalizing index ops with
  | nil =>
    cases h
    rfl
  | cons i code ih =>
    obtain ⟨op, tail, hop, htail, rfl⟩ := operations_cons_eq_ok_iff.1 h
    rw [marks_append, marks_append, marks_markAt, marks_lineAt, append_nil,
      marks_cons_of_isReal (isReal_of_operation hop), ih htail, length_cons, range'_succ,
      filterMap_cons]
    cases targets.lookup index <;> rfl

theorem mem_references_operations :
    l ∈ references ops ↔ ∃ place, Leads index code place ∧ targets.lookup place = some l := by
  induction code generalizing index ops with
  | nil =>
    cases h
    simp
  | cons i code ih =>
    obtain ⟨op, tail, hop, htail, rfl⟩ := operations_cons_eq_ok_iff.1 h
    -- only the operation itself can jump
    have hmarkers : references (markAt targets index ++ lineAt c index) = [] := by
      rw [references_append, markAt]
      rcases lineAt_eq_nil_or c index with h | ⟨n, h⟩ <;> rw [h] <;>
        cases targets.lookup index <;> rfl
    have hhere : l ∈ references [op] ↔
        ∃ place, i.target index = some place ∧ targets.lookup place = some l := by
      obtain ⟨opcode, arg⟩ := i
      have hopcode := opcode_of_operation hop
      cases op with
      | line | mark => cases hopcode
      | jump o m =>
        cases hopcode
        simp only [operation] at hop
        cases htarget : Instruction.target ⟨.jump o, arg⟩ index with
        | none => cases htarget
        | some place =>
          simp only [htarget, Option.bind_some] at hop
          cases hlookup : targets.lookup place with
          | none => simp only [hlookup, reduceCtorEq] at hop
          | some m' =>
            simp only [hlookup] at hop
            cases hop
            simp [references, Op.jumpTarget, hlookup, eq_comm]
      | _ =>
        cases hopcode
        simp [references, Op.jumpTarget, Instruction.target]
    rw [references_append, hmarkers, nil_append, ← singleton_append, references_append,
      mem_append, hhere, ih htail]
    simp only [leads_cons, or_and_right, exists_or]

end

/-! ### Places of labels -/

theorem operations_append_eq_ok_iff {code' : List Instruction} :
    operations c targets index (code ++ code') = .ok ops ↔
      ∃ a b, operations c targets index code = .ok a ∧
        operations c targets (index + code.length) code' = .ok b ∧ ops = a ++ b := by
  induction code generalizing index ops with
  | nil =>
    constructor
    · intro h
      exact ⟨[], ops, rfl, h, rfl⟩
    · rintro ⟨a, b, ha, hb, rfl⟩
      cases ha
      exact hb
  | cons i code ih =>
    have hlength : index + 1 + code.length = index + (i :: code).length := by
      rw [length_cons]
      omega
    rw [cons_append, operations_cons_eq_ok_iff]
    constructor
    · rintro ⟨op, tail, hop, htail, rfl⟩
      obtain ⟨a, b, ha, hb, rfl⟩ := ih.1 htail
      refine ⟨markAt targets index ++ lineAt c index ++ op :: a, b,
        operations_cons_eq_ok_iff.2 ⟨op, a, hop, ha, rfl⟩, hlength ▸ hb, ?_⟩
      simp only [append_assoc, cons_append]
    · rintro ⟨a, b, ha, hb, rfl⟩
      obtain ⟨op, tail, hop, htail, rfl⟩ := operations_cons_eq_ok_iff.1 ha
      refine ⟨op, tail ++ b, hop, ih.2 ⟨tail, b, htail, hlength ▸ hb, rfl⟩, ?_⟩
      simp only [append_assoc, cons_append]

theorem reals_operations_eq_self (h : operations c targets index code = .ok ops)
    (hlabels : ∀ place ≥ index, targets.lookup place = none)
    (hlines : ∀ place ≥ index, lineAt c place = []) : reals ops = ops := by
  induction code generalizing index ops with
  | nil =>
    cases h
    rfl
  | cons i code ih =>
    obtain ⟨op, tail, hop, htail, rfl⟩ := operations_cons_eq_ok_iff.1 h
    have htail' := ih htail (fun place hplace => hlabels place (by omega))
      fun place hplace => hlines place (by omega)
    rw [markAt, hlabels index le_rfl, hlines index le_rfl]
    simp only [Option.map_none, Option.toList_none, nil_append]
    rw [reals, filter_cons_of_pos (isReal_of_operation hop)]
    exact congrArg (op :: ·) htail'

theorem position?_eq_none_of_notMem (h : l ∉ marks ops) (index : Nat) :
    position? l index ops = none := by
  rw [← Option.not_isSome_iff_eq_none, isSome_position?_iff]
  exact h

theorem position?_operations (hlabels : Labelling P first targets ls)
    (h : operations c targets index code = .ok ops) (hl : targets.lookup place = some l)
    (hle : index ≤ place) (hlt : place < index + code.length) :
    position? l index ops = some place := by
  induction code generalizing index ops with
  | nil =>
    rw [length_nil] at hlt
    omega
  | cons i code ih =>
    obtain ⟨op, tail, hop, htail, rfl⟩ := operations_cons_eq_ok_iff.1 h
    rw [append_assoc, position?_append]
    rcases Nat.eq_or_lt_of_le hle with rfl | hlt'
    · have hmark : position? l index (markAt targets index) = some index := by
        rw [markAt, hl]
        simp [position?]
      rw [hmark, Option.some_or]
    · -- the label is not the one of this place
      have hmark : l ∉ marks (markAt targets index) := by
        rw [marks_markAt, Option.mem_toList]
        intro hindex
        exact hlt'.ne (hlabels.inj index place l hindex hl)
      rw [position?_eq_none_of_notMem hmark, Option.none_or, size_markAt, position?_append,
        position?_eq_none_of_notMem (by rw [marks_lineAt]; exact not_mem_nil), Option.none_or,
        size_lineAt, Nat.add_zero, position?_cons_of_isReal (isReal_of_operation hop)]
      rw [length_cons] at hlt
      exact ih htail hlt' (by omega)

def stream (c : Code) (targets : Targets) (ops : Stream) : Stream :=
  ops ++ (if c.code.isEmpty then [.line c.firstLine] else []) ++ markAt targets c.code.length

theorem toStream_eq {ls' : Labels}
    (h : OfCode.targetLabels c.code.length 0 [] ls c.code = (.ok targets, ls')) :
    c.toStream ls = ((operations c targets 0 c.code).map (stream c targets), ls') := by
  rw [CodeOf.toStream, h]
  rfl

theorem leads_le_of_targetLabels {size : Nat} {targets' : Targets} {ls' : Labels}
    (h : targetLabels size index targets ls code = (.ok targets', ls'))
    (hplace : Leads index code place) : place ≤ size := by
  induction code generalizing index targets ls with
  | nil => exact absurd hplace (not_leads_nil index place)
  | cons i code ih =>
    rw [targetLabels] at h
    cases htarget : i.target index with
    | none =>
      simp only [htarget] at h
      rcases leads_cons.1 hplace with hhere | hlater
      · rw [htarget] at hhere
        cases hhere
      · exact ih h hlater
    | some target =>
      simp only [htarget] at h
      have hlater (hlater : Leads (index + 1) code place) : place ≤ size := by
        split_ifs at h
        · cases h
        · exact ih h hlater
        · exact ih h hlater
      rcases leads_cons.1 hplace with hhere | hafter
      · obtain rfl : target = place := by rwa [htarget, Option.some.injEq] at hhere
        by_contra hgt
        rw [if_pos (Nat.lt_of_not_le hgt)] at h
        cases h
      · exact hlater hafter

theorem exists_of_toStream {ls' : Labels} (h : c.toStream ls = (.ok ops, ls')) :
    ∃ targets read, Labelling (Leads 0 c.code) ls.allocated targets ls' ∧
      operations c targets 0 c.code = .ok read ∧ ops = stream c targets read := by
  rcases htargets : OfCode.targetLabels c.code.length 0 [] ls c.code with ⟨result, labels⟩
  cases result with
  | error e =>
    simp only [CodeOf.toStream, htargets, Prod.mk.injEq, reduceCtorEq, false_and] at h
  | ok targets =>
    obtain ⟨targets', labels', htargets', hlabels⟩ :=
      exists_labelling ls fun place hplace => leads_le_of_targetLabels htargets hplace
    rw [htargets] at htargets'
    cases htargets'
    rw [toStream_eq htargets] at h
    cases hread : operations c targets 0 c.code with
    | error e =>
      rw [hread] at h
      cases h
    | ok read =>
      rw [hread] at h
      cases h
      exact ⟨targets, read, hlabels, hread, rfl⟩

theorem marks_opening (c : Code) :
    marks (if c.code.isEmpty then [.line c.firstLine] else []) = [] := by
  split <;> rfl

theorem size_opening (c : Code) :
    size (if c.code.isEmpty then [.line c.firstLine] else []) = 0 := by
  split <;> rfl

theorem references_opening (c : Code) :
    references (if c.code.isEmpty then [.line c.firstLine] else []) = [] := by
  split <;> rfl

theorem references_markAt (index : Nat) : references (markAt targets index) = [] := by
  rw [markAt]
  cases targets.lookup index <;> rfl

theorem references_stream (c : Code) (targets : Targets) (ops : Stream) :
    references (stream c targets ops) = references ops := by
  rw [stream, references_append, references_append, references_opening, references_markAt,
    append_nil, append_nil]

theorem marks_stream (h : operations c targets 0 c.code = .ok ops) :
    marks (stream c targets ops) =
      (List.range (c.code.length + 1)).filterMap fun place => targets.lookup place := by
  rw [stream, marks_append, marks_append, marks_operations h, marks_opening, append_nil,
    marks_markAt, range_succ, filterMap_append, range_eq_range', filterMap_cons,
    filterMap_nil]
  cases targets.lookup c.code.length <;> rfl

variable {ls : Labels}

theorem position?_stream (hlabels : Labelling P first targets ls)
    (hP : ∀ place, P place → place ≤ c.code.length) (h : operations c targets 0 c.code = .ok ops)
    (hl : targets.lookup place = some l) : position? l 0 (stream c targets ops) = some place := by
  have hle : place ≤ c.code.length := hP place ((hlabels.isSome_iff place).1 (by rw [hl]; rfl))
  rw [stream, append_assoc, position?_append, size_operations h, Nat.zero_add]
  rcases Nat.lt_or_eq_of_le hle with hlt | rfl
  · rw [position?_operations hlabels h hl (Nat.zero_le _) (by omega), Option.some_or]
  · have hops : l ∉ marks ops := by
      rw [marks_operations h, mem_filterMap]
      rintro ⟨a, ha, hal⟩
      have := hlabels.inj a _ l hal hl
      rw [mem_range'_1] at ha
      omega
    rw [position?_eq_none_of_notMem hops, Option.none_or, position?_append,
      position?_eq_none_of_notMem (by rw [marks_opening]; exact not_mem_nil), Option.none_or,
      size_opening, markAt, hl]
    simp [position?]

theorem checkLabels_stream (hlabels : Labelling (Leads 0 c.code) first targets ls)
    (hplaces : ∀ place, Leads 0 c.code place → place ≤ c.code.length)
    (h : operations c targets 0 c.code = .ok ops) :
    checkLabels (stream c targets ops) = .ok () := by
  rw [checkLabels_eq_ok_iff, marks_stream h, references_stream]
  constructor
  · refine nodup_range.filterMap fun a b l ha hb => ?_
    exact hlabels.inj a b l ha hb
  · intro l
    rw [mem_references_operations h, mem_filterMap]
    constructor
    · rintro ⟨place, -, hl⟩
      exact ⟨place, (hlabels.isSome_iff place).1 (by rw [hl]; rfl), hl⟩
    · rintro ⟨place, hplace, hl⟩
      exact ⟨place, mem_range.2 (Nat.lt_succ_of_le (hplaces place hplace)), hl⟩

end Bytewright.OfCode
