import Bytewright.Proofs.Generator.Splice

/-!
# The frame of a suite

The mark of a label stands in front of the line marker of its place.  So the stream of a unit opens
with a line marker exactly if nothing jumps to the first instruction.
-/

namespace Bytewright

open Assemble List OfCode

/-! ### Jumps and lines of a unit -/

namespace CodeOf

/-- An instruction of the unit jumps to a place. -/
def JumpsTo (c : Code) (place : Nat) : Prop := ∃ i, c.jumpTarget i = some place

/-- The line table of the unit has an entry for a place. -/
def HasLineAt (c : Code) (place : Nat) : Prop := ∃ e ∈ c.lines, e.1.toNat = place

/-- The last two instructions of the unit load `None` and return it, and nothing jumps to the return
or behind it. -/
structure ReturnsNone (c : Code) : Prop where
  code_eq : ∃ front k arg, c.code = front ++ [⟨.loadConst, k⟩, ⟨.bare .returnValue, arg⟩] ∧
    c.consts[k.toNat]? = some .none
  not_jumpsTo_return : ¬c.JumpsTo (c.code.length - 1)
  not_jumpsTo_end : ¬c.JumpsTo c.code.length

theorem jumpsTo_iff_leads {c : Code} {place : Nat} : c.JumpsTo place ↔ Leads 0 c.code place := by
  simp only [JumpsTo, jumpTarget, Leads, Nat.zero_add]
  constructor
  · rintro ⟨k, hk⟩
    split at hk
    · next i hi => exact ⟨k, i, hi, hk⟩
    · cases hk
  · rintro ⟨k, i, hi, hplace⟩
    exact ⟨k, by simp only [hi, hplace]⟩

theorem jumpsTo_iff_exists_lt {c : Code} {place : Nat} :
    c.JumpsTo place ↔ ∃ i < c.code.length, c.jumpTarget i = some place := by
  constructor
  · rintro ⟨i, hi⟩
    refine ⟨i, ?_, hi⟩
    by_contra hge
    rw [jumpTarget, getElem?_eq_none (Nat.le_of_not_lt hge)] at hi
    cases hi
  · rintro ⟨i, -, hi⟩
    exact ⟨i, hi⟩

instance (c : Code) (place : Nat) : Decidable (c.JumpsTo place) :=
  decidable_of_iff _ jumpsTo_iff_exists_lt.symm

instance (c : Code) (place : Nat) : Decidable (c.HasLineAt place) :=
  inferInstanceAs (Decidable (∃ e ∈ c.lines, e.1.toNat = place))

end CodeOf

namespace OfCode

/-! ### Labels of a unit that is taken apart -/

variable {c : Code} {targets : Targets} {ls ls' : Labels} {ops read : Stream} {place : Nat}

section Marks

variable {first : Nat} (hlabels : Labelling (Leads 0 c.code) first targets ls)
include hlabels

theorem markAt_eq_nil (h : ¬c.JumpsTo place) : markAt targets place = [] := by
  have hnone : targets.lookup place = none := by
    rw [← Option.not_isSome_iff_eq_none, hlabels.isSome_iff, ← CodeOf.jumpsTo_iff_leads]
    exact h
  rw [markAt, hnone]
  rfl

theorem exists_markAt_eq (h : c.JumpsTo place) : ∃ l, markAt targets place = [.mark l] := by
  rw [CodeOf.jumpsTo_iff_leads, ← hlabels.isSome_iff, Option.isSome_iff_exists] at h
  obtain ⟨l, hl⟩ := h
  exact ⟨l, by rw [markAt, hl]; rfl⟩

end Marks

/-! ### Line markers -/

theorem exists_lineAt_zero (c : Code) : ∃ n, lineAt c 0 = [.line n] := by
  rw [lineAt]
  split
  · exact ⟨_, rfl⟩
  · exact ⟨c.firstLine, rfl⟩

theorem exists_lineAt_eq (h : c.HasLineAt place) : ∃ n, lineAt c place = [.line n] := by
  obtain ⟨e, he, hplace⟩ := h
  rw [lineAt]
  split
  · exact ⟨_, rfl⟩
  · next hfind =>
    have hne := find?_eq_none.1 hfind e (mem_reverse.2 he)
    simp [hplace] at hne

theorem lineAt_eq_nil (hpos : place ≠ 0) (h : ¬c.HasLineAt place) : lineAt c place = [] := by
  have hfind : c.lines.reverse.find? (fun entry => entry.1.toNat == place) = none := by
    refine find?_eq_none.2 fun e he => ?_
    simpa using fun hplace => h ⟨e, mem_reverse.1 he, hplace⟩
  rw [lineAt, hfind]
  exact if_neg hpos

/-! ### The two ends of a stream -/

theorem exists_stream_eq_markAt_append {first : Nat}
    (hlabels : Labelling (Leads 0 c.code) first targets ls)
    (hread : operations c targets 0 c.code = .ok read) :
    ∃ n rest, stream c targets read = markAt targets 0 ++ .line n :: rest := by
  obtain ⟨n, hline⟩ := exists_lineAt_zero c
  cases hcode : c.code with
  | nil =>
    -- the marker of an empty unit is put in by hand, and nothing jumps there
    have hmark (place : Nat) : markAt targets place = [] := by
      refine markAt_eq_nil hlabels ?_
      rw [CodeOf.jumpsTo_iff_leads, hcode]
      exact not_leads_nil 0 place
    rw [hcode] at hread
    cases hread
    exact ⟨c.firstLine, [], by simp only [stream, hcode, hmark]; rfl⟩
  | cons i code =>
    rw [hcode] at hread
    obtain ⟨op, tail, -, -, rfl⟩ := operations_cons_eq_ok_iff.1 hread
    rw [stream, hline]
    exact ⟨n, _, by simp only [append_assoc, cons_append, nil_append]; rfl⟩

theorem exists_stream_eq_append {front : List Instruction} {k arg : UInt32}
    (hread : operations c targets 0 c.code = .ok read)
    (hcode : c.code = front ++ [⟨.loadConst, k⟩, ⟨.bare .returnValue, arg⟩])
    (hnone : c.consts[k.toNat]? = some .none) (hreturn : markAt targets (front.length + 1) = [])
    (hend : markAt targets (front.length + 2) = []) :
    ∃ body, stream c targets read =
      body ++ .const .none :: (lineAt c (front.length + 1) ++ [.bare .returnValue]) := by
  have hempty : c.code.isEmpty = false := by simp [hcode]
  have hlength : c.code.length = front.length + 2 := by simp [hcode]
  rw [hcode, operations_append_eq_ok_iff, Nat.zero_add] at hread
  obtain ⟨a, b, -, hb, rfl⟩ := hread
  obtain ⟨op, tail, hop, htail, rfl⟩ := operations_cons_eq_ok_iff.1 hb
  obtain ⟨op', tail', hop', htail', rfl⟩ := operations_cons_eq_ok_iff.1 htail
  cases hop'
  cases htail'
  obtain rfl : Op.const .none = op := by simpa only [operation, hnone, Except.ok.injEq] using hop
  refine ⟨a ++ (markAt targets front.length ++ lineAt c front.length), ?_⟩
  rw [stream, hempty, hlength, hend, hreturn]
  simp only [Bool.false_eq_true, if_false, append_nil, append_assoc, nil_append]

theorem opens_of_toStream (h : c.toStream ls = (.ok ops, ls')) :
    (¬c.JumpsTo 0 → ∃ n rest, ops = .line n :: rest) ∧
      (c.JumpsTo 0 → ∃ l n rest, ops = .mark l :: .line n :: rest) := by
  obtain ⟨targets, read, hlabels, hread, rfl⟩ := exists_of_toStream h
  obtain ⟨n, rest, hopens⟩ := exists_stream_eq_markAt_append hlabels hread
  constructor
  · intro hjump
    rw [markAt_eq_nil hlabels hjump] at hopens
    exact ⟨n, rest, hopens⟩
  · intro hjump
    obtain ⟨l, hl⟩ := exists_markAt_eq hlabels hjump
    rw [hl] at hopens
    exact ⟨l, n, rest, hopens⟩

theorem closes_of_toStream (h : c.toStream ls = (.ok ops, ls')) (hc : c.ReturnsNone) :
    ∃ body, ops =
      body ++ .const .none :: (lineAt c (c.code.length - 1) ++ [.bare .returnValue]) := by
  obtain ⟨targets, read, hlabels, hread, rfl⟩ := exists_of_toStream h
  obtain ⟨⟨front, k, arg, hcode, hnone⟩, hreturn, hend⟩ := hc
  have hlength : c.code.length = front.length + 2 := by simp [hcode]
  rw [hlength] at hreturn hend ⊢
  exact exists_stream_eq_append hread hcode hnone (markAt_eq_nil hlabels hreturn)
    (markAt_eq_nil hlabels hend)

end OfCode

/-! ### Cutting the frame off -/

namespace Generator

variable {g : Generator} {fragment : Fragment} {c : Code} {ops : Stream} {labels : Labels}

theorem insert_eq_error {mode : Mode} {fault : FrameFault}
    (hcode : g.compiler fragment g.fileName mode = .ok c)
    (hops : c.toStream g.labels = (.ok ops, labels)) (htrim : trimFrame mode ops = .error fault) :
    insert fragment mode true g = .error (.malformedFragment mode fault) { g with labels } := by
  simp only [insert, hcode, hops, if_true, htrim]

theorem trimFrame_eq_noReturnNone (line n : UInt32) (body : Stream) :
    trimFrame .statements (.line line :: (body ++ [.line n, .bare .returnValue])) =
      .error .noReturnNone := by
  simp [trimFrame]

section Insert

variable (hcode : g.compiler fragment g.fileName .statements = .ok c)
  (hops : c.toStream g.labels = (.ok ops, labels))
include hcode hops

theorem insertBlock_of_jumpsTo (h : c.JumpsTo 0) :
    insertBlock fragment true g =
      .error (.malformedFragment .statements .noLineMarker) { g with labels } := by
  obtain ⟨l, n, rest, rfl⟩ := (opens_of_toStream hops).2 h
  exact insert_eq_error hcode hops rfl

theorem insertBlock_of_hasLineAt (hc : c.ReturnsNone) (h : ¬c.JumpsTo 0)
    (hline : c.HasLineAt (c.code.length - 1)) :
    insertBlock fragment true g =
      .error (.malformedFragment .statements .noReturnNone) { g with labels } := by
  obtain ⟨n, rest, hopens⟩ := (opens_of_toStream hops).1 h
  obtain ⟨body, hcloses⟩ := closes_of_toStream hops hc
  obtain ⟨m, hm⟩ := exists_lineAt_eq hline
  rw [hm] at hcloses
  refine insert_eq_error hcode hops ?_
  rcases cons_eq_append_iff.1 (hopens.symm.trans hcloses) with ⟨-, hbad⟩ | ⟨body', -, hrest⟩
  · cases hbad
  · rw [hopens, hrest, append_cons]
    exact trimFrame_eq_noReturnNone n m _

theorem exists_insertBlock_of_returnsNone (hc : c.ReturnsNone) (h : ¬c.JumpsTo 0)
    (hline : ¬c.HasLineAt (c.code.length - 1)) :
    ∃ n body, ops = .line n :: (body ++ [.const .none, .bare .returnValue]) ∧
      insertBlock fragment true g = .ok () { g with labels, ops := g.ops ++ body } := by
  obtain ⟨n, rest, hopens⟩ := (opens_of_toStream hops).1 h
  obtain ⟨body, hcloses⟩ := closes_of_toStream hops hc
  have hpos : c.code.length - 1 ≠ 0 := by
    obtain ⟨front, k, arg, heq, -⟩ := hc.code_eq
    simp [heq]
  rw [lineAt_eq_nil hpos hline] at hcloses
  rcases cons_eq_append_iff.1 (hopens.symm.trans hcloses) with ⟨-, hbad⟩ | ⟨body', -, hrest⟩
  · cases hbad
  · have heq : ops = .line n :: (body' ++ [.const .none, .bare .returnValue]) := by
      rw [hopens, hrest]
      rfl
    refine ⟨n, body', heq, insert_eq_ok hcode hops ?_⟩
    rw [if_pos rfl, heq]
    exact trimFrame_statements n body'

end Insert

end Generator

/-- The stream of a unit opens with a line marker unless something jumps to the first instruction;
then the mark of that label comes first.  So a suite of an assembled unit that ends by returning
`None` is spliced without its frame unless something jumps to its first instruction, or its line
table has an entry for the return. -/
theorem suite_trimmed_unless_start_is_target (c : Code) :
    (∀ (ls ls' : Labels) (ops : Stream), c.toStream ls = (.ok ops, ls') →
      (¬c.JumpsTo 0 → ∃ n rest, ops = .line n :: rest) ∧
      (c.JumpsTo 0 → ∃ l n rest, ops = .mark l :: .line n :: rest)) ∧
    ∀ (g : Generator) (fragment : Fragment),
      g.compiler fragment g.fileName .statements = .ok c →
      (∃ fileName source header, assemble fileName source header = .ok c) → c.Addressable →
      c.ReturnsNone →
      ∃ ops labels, c.toStream g.labels = (.ok ops, labels) ∧
        (¬c.JumpsTo 0 → ¬c.HasLineAt (c.code.length - 1) →
          ∃ n body, ops = .line n :: (body ++ [.const .none, .bare .returnValue]) ∧
            Generator.insertBlock fragment true g =
              .ok () { g with labels, ops := g.ops ++ body }) ∧
        (¬c.JumpsTo 0 → c.HasLineAt (c.code.length - 1) → Generator.insertBlock fragment true g =
            .error (.malformedFragment .statements .noReturnNone) { g with labels }) ∧
        (c.JumpsTo 0 → Generator.insertBlock fragment true g =
            .error (.malformedFragment .statements .noLineMarker) { g with labels }) := by
  refine ⟨fun ls ls' ops hops => opens_of_toStream hops, ?_⟩
  rintro g fragment hcode ⟨fileName, source, header, hassemble⟩ haddressable hc
  have h := assemble_eq_ok_iff.1 hassemble
  obtain ⟨labels, targets, read, happart, -⟩ := h.exists_takenApart haddressable g.labels
  have hops := happart.toStream_eq
  exact ⟨stream c targets read, labels, hops,
    Generator.exists_insertBlock_of_returnsNone hcode hops hc,
    Generator.insertBlock_of_hasLineAt hcode hops hc,
    Generator.insertBlock_of_jumpsTo hcode hops⟩

def waiting : Stream :=
  [.line 2, .const (.int 1), .bare .popTop, .mark ⟨0⟩, .line 3, .const (.bool true),
   .jump .popJumpIfTrue ⟨0⟩, .const .none, .bare .returnValue]

def waitingUnit : Code where
  stackSize := 1
  flags := ⟨0x41⟩
  code := [⟨.loadConst, 0⟩, ⟨.bare .popTop, 0⟩, ⟨.loadConst, 1⟩, ⟨.jump .popJumpIfTrue, 2⟩,
    ⟨.loadConst, 2⟩, ⟨.bare .returnValue, 0⟩]
  fileName := "loops"
  name := "<module>"
  firstLine := 1
  lines := [(0, 2), (2, 3)]
  consts := [.int 1, .bool true, .none]

def waitingGenerator : Generator where
  fileName := "loops"
  compiler := fun _ _ _ => .ok waitingUnit

/-- A suite with a loop behind its first instruction loses its frame and nothing else. -/
theorem waiting_trimmed :
    assemble "loops" waiting { name := "<module>", firstLine := 1 } = .ok waitingUnit ∧
      waitingUnit.Addressable ∧ waitingUnit.ReturnsNone ∧ ¬waitingUnit.JumpsTo 0 ∧
      ¬waitingUnit.HasLineAt 5 ∧
      ∃ ops labels n body, waitingUnit.toStream {} = (.ok ops, labels) ∧
        ops = .line n :: (body ++ [.const .none, .bare .returnValue]) ∧
        Generator.insertBlock (.source "") true waitingGenerator =
          .ok () { waitingGenerator with labels, ops := body } := by
  have hcode : assemble "loops" waiting { name := "<module>", firstLine := 1 } =
      .ok waitingUnit := by
    cbv
  have haddressable : waitingUnit.Addressable :=
    ⟨by decide, by decide, fun pool => by cases pool <;> decide⟩
  have hreturns : waitingUnit.ReturnsNone :=
    ⟨⟨waitingUnit.code.take 4, 2, 0, rfl, rfl⟩, by decide, by decide⟩
  have hjump : ¬waitingUnit.JumpsTo 0 := by decide
  have hline : ¬waitingUnit.HasLineAt 5 := by decide
  obtain ⟨ops, labels, hops, htrimmed, -, -⟩ := (suite_trimmed_unless_start_is_target waitingUnit).2
    waitingGenerator (.source "") rfl ⟨_, _, _, hcode⟩ haddressable hreturns
  obtain ⟨n, body, hbody, hinsert⟩ := htrimmed hjump hline
  exact ⟨hcode, haddressable, hreturns, hjump, hline, ops, labels, n, body, hops, hbody, hinsert⟩

def restarting : Stream :=
  [.mark ⟨0⟩, .const (.bool true), .jump .popJumpIfTrue ⟨0⟩, .const .none, .bare .returnValue]

def restartingUnit : Code where
  stackSize := 1
  flags := ⟨0x41⟩
  code := [⟨.loadConst, 0⟩, ⟨.jump .popJumpIfTrue, 0⟩, ⟨.loadConst, 1⟩, ⟨.bare .returnValue, 0⟩]
  fileName := "loops"
  name := "<module>"
  firstLine := 1
  consts := [.bool true, .none]

def restartingGenerator : Generator where
  fileName := "loops"
  compiler := fun _ _ _ => .ok restartingUnit

/-- A suite that jumps to its first instruction does not open with a line marker, and its frame is
not cut off. -/
theorem restarting_not_trimmed :
    assemble "loops" restarting { name := "<module>", firstLine := 1 } = .ok restartingUnit ∧
      restartingUnit.ReturnsNone ∧ ¬restartingUnit.HasLineAt 3 ∧
      restartingUnit.toStream {} =
        (.ok [.mark ⟨0⟩, .line 1, .const (.bool true), .jump .popJumpIfTrue ⟨0⟩, .const .none,
          .bare .returnValue], ⟨1⟩) ∧
      Generator.insertBlock (.source "") true restartingGenerator =
        .error (.malformedFragment .statements .noLineMarker)
          { restartingGenerator with labels := ⟨1⟩ } := by
  refine ⟨by cbv, ⟨⟨restartingUnit.code.take 2, 1, 0, rfl, rfl⟩, by decide, by decide⟩, by decide,
    rfl, rfl⟩

end Bytewright
