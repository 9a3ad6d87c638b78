import Bytewright.Proofs.Stream.LineTable
import Bytewright.Stream.Tracing

/-!
# Taking a unit apart and assembling it again

The line table of the new unit has an entry only where the line changes.  From then on nothing
changes.
-/

namespace Bytewright

open Assemble List OfCode

/-! ### Assembled units -/

/-- All that makes `c` the unit of the stream. -/
structure Assembled (fileName : String) (ops : Stream) (header : Header) (c : Code) : Prop where
  labels : checkLabels ops = .ok ()
  parameters : header.args.Nodup
  encode_eq : encode ops 0 header.pools ops =
    .ok (c.code, c.pools)
  stackSize_eq : stackSize c.code header.maxStackSize = .ok c.stackSize
  argCount_eq : c.argCount = UInt32.ofNat (argCount header)
  numLocals_eq : c.numLocals = UInt32.ofNat c.varNames.length
  flags_eq : c.flags = flags ops header c.freeVars
  fileName_eq : c.fileName = fileName
  name_eq : c.name = header.name
  firstLine_eq : c.firstLine = header.firstLine
  lines_eq : c.lines = lineTable 0 [] ops
  docString_eq : c.docString = header.docString

theorem assemble_eq_ok_iff {fileName : String} {ops : Stream} {header : Header} {c : Code} :
    assemble fileName ops header = .ok c ↔ Assembled fileName ops header c := by
  simp only [assemble, bind, Except.bind, pure, Except.pure]
  constructor
  · intro h
    cases hlabels : checkLabels ops with
    | error e => simp only [hlabels, reduceCtorEq] at h
    | ok _ =>
      simp only [hlabels] at h
      cases hparameters : checkParameters header.args with
      | error e => simp only [hparameters, reduceCtorEq] at h
      | ok _ =>
        simp only [hparameters] at h
        cases hencode : encode ops 0 header.pools ops with
        | error e => simp only [hencode, reduceCtorEq] at h
        | ok result =>
          simp only [hencode] at h
          cases hsize : stackSize result.1 header.maxStackSize with
          | error e => simp only [hsize, reduceCtorEq] at h
          | ok size =>
            simp only [hsize, Except.ok.injEq] at h
            subst h
            exact ⟨hlabels, checkParameters_eq_ok_iff.1 hparameters, hencode, hsize, rfl, rfl, rfl,
              rfl, rfl, rfl, rfl, rfl⟩
  · rintro ⟨hlabels, hparameters, hencode, hsize, hargCount, hnumLocals, hflags, hfileName, hname,
      hfirstLine, hlines, hdocString⟩
    obtain ⟨⟨_, _, _, _, code, _, _, _, _, _, _, _, _⟩, _⟩ := c
    simp only [CodeOf.pools] at *
    subst hargCount hnumLocals hflags hfileName hname hfirstLine hlines hdocString
    simp only [hlabels, checkParameters_eq_ok_iff.2 hparameters, hencode, hsize]

/-! ### The header of an assembled unit -/

theorem contains_flags (ops : Stream) (header : Header) (freeVars : List String) :
    (flags ops header freeVars).contains .varArgs = header.varArgs ∧
      (flags ops header freeVars).contains .varKeywords = header.varKeywords ∧
      (flags ops header freeVars).contains .newLocals = header.newLocals := by
  simp only [flags]
  generalize (!ops.any Op.isDynamicName) = optimized, freeVars.isEmpty = noFree,
    header.varArgs = varArgs, header.varKeywords = varKeywords, header.newLocals = newLocals
  revert optimized noFree varArgs varKeywords newLocals
  decide

variable {fileName : String} {ops : Stream} {header : Header} {c : Code} {l : Label} {place : Nat}
  {a b : Stream} {op : Op}

theorem Depth.check_nil : Depth.check [] = .error ⟨0, .fallsOff⟩ := by cbv

namespace Assembled

variable (h : Assembled fileName ops header c)
include h

theorem upto : Pools.Upto header.pools c.pools :=
  upto_of_encode h.encode_eq

theorem args_prefix : header.args <+: c.varNames :=
  h.upto.names .locals

theorem args_prefix_ofCode (hc : c.Addressable) : header.args <+: (Header.ofCode c).args := by
  obtain ⟨hvarArgs, hvarKeywords, -⟩ := contains_flags ops header c.freeVars
  have hlt : header.args.length < 4294967296 :=
    h.args_prefix.length_le.trans_lt (hc.names .locals)
  refine prefix_take_iff.2 ⟨h.args_prefix, ?_⟩
  rw [h.flags_eq, hvarArgs, hvarKeywords, h.argCount_eq, argCount,
    UInt32.toNat_ofNat_of_lt' (show _ < 4294967296 by omega)]
  omega

theorem argCount_ofCode (hc : c.Addressable) : argCount (Header.ofCode c) = argCount header := by
  obtain ⟨hvarArgs, hvarKeywords, -⟩ := contains_flags ops header c.freeVars
  have hle := h.args_prefix.length_le
  have hlt : header.args.length < 4294967296 := hle.trans_lt (hc.names .locals)
  simp only [argCount, Header.ofCode, length_take, h.flags_eq, hvarArgs, hvarKeywords,
    h.argCount_eq]
  rw [UInt32.toNat_ofNat_of_lt' (show _ < 4294967296 by omega)]
  omega

theorem code_ne_nil : c.code ≠ [] := by
  intro hnil
  have hsize := h.stackSize_eq
  rw [hnil] at hsize
  rw [stackSize, Depth.check_nil] at hsize
  cases hsize

theorem size_lt (hc : c.Addressable) : size ops < 4294967296 := by
  rw [← length_of_encode h.encode_eq]
  exact hc.code

theorem ordered (hc : c.Addressable) : Ordered c.lines := by
  rw [h.lines_eq]
  refine ordered_lineTable ⟨List.Pairwise.nil, fun e he => by cases he⟩ ?_
  have := h.size_lt hc
  omega

theorem leads_le (hc : c.Addressable) (hplace : Leads 0 c.code place) : place ≤ c.code.length := by
  obtain ⟨l, -, hl⟩ := exists_position?_of_leads (h.size_lt hc) h.encode_eq hplace
  have := (position?_bounds hl).2
  rw [length_of_encode h.encode_eq]
  omega

theorem stackSize_none : stackSize c.code none = .ok c.stackSize := by
  have hsize := h.stackSize_eq
  rw [stackSize] at hsize ⊢
  cases hcheck : Depth.check c.code with
  | error e => simp only [hcheck, reduceCtorEq] at hsize
  | ok n =>
    simp only [hcheck] at hsize ⊢
    cases hmax : header.maxStackSize with
    | none => simpa only [hmax] using hsize
    | some max =>
      simp only [hmax] at hsize
      split at hsize
      · cases hsize
      · exact hsize

theorem check_eq : Depth.check c.code = .ok c.stackSize := by
  have hnone := h.stackSize_none
  rw [stackSize] at hnone
  split at hnone
  · cases hnone
  · next hcheck => rwa [← Except.ok.inj hnone]

end Assembled

variable {targets : Targets}

/-! ### Reading the operations back -/

theorem any_isDynamicName_reals (ops : Stream) :
    (reals ops).any Op.isDynamicName = ops.any Op.isDynamicName := by
  rw [reals, any_filter]
  congr 1
  funext op
  cases op <;> rfl

theorem any_isDynamicName_eq {R : Op → Op → Prop}
    (hR : ∀ op op', R op op' → op'.isDynamicName = op.isDynamicName)
    (h : List.Forall₂ R (reals a) (reals b)) : b.any Op.isDynamicName = a.any Op.isDynamicName := by
  rw [← any_isDynamicName_reals a, ← any_isDynamicName_reals b]
  generalize reals a = x, reals b = y at h
  induction h with
  | nil => rfl
  | cons hop _ ih => rw [any_cons, any_cons, hR _ _ hop, ih]

theorem opcode_of_mem_ending (h : op ∈ (if c.code.isEmpty then [Op.line c.firstLine] else []) ++
      markAt targets c.code.length) : op.opcode = none := by
  rcases mem_append.1 h with h | h
  · split at h
    · rw [mem_singleton.1 h]
      rfl
    · cases h
  · exact opcode_of_mem_markAt h

theorem reals_stream (c : Code) (ops : Stream) : reals (stream c targets ops) = reals ops := by
  rw [stream, append_assoc, reals_append,
    reals_of_markers fun op hop => opcode_of_mem_ending hop, append_nil]

theorem encode_stream (c : Code) (ops whole : Stream) (p : Pools) :
    encode whole 0 p (stream c targets ops) = encode whole 0 p ops := by
  rw [stream, append_assoc]
  exact encode_append_markers (fun op hop => opcode_of_mem_ending hop) whole 0 p ops

/-- The same operation, but for its label and for a constant that shares its slot. -/
def Op.Renamed (rename : Label → Label) : Op → Op → Prop
  | .const c, op' => ∃ k, op' = .const k ∧ (k = c ∨ k.sameAs c = true)
  | .jump o l, op' => op' = .jump o (rename l)
  | op, op' => op' = op

def labelOfPlace (ops : Stream) (targets : Targets) (l : Label) : Label :=
  ((position? l 0 ops).bind fun place => targets.lookup place).getD l

theorem Op.ReadBack.renamed {op' : Op} (h : op.ReadBack ops targets op') :
    op.Renamed (labelOfPlace ops targets) op' := by
  cases op with
  | jump o l =>
    obtain ⟨place, l', rfl, hplace, hl'⟩ := h
    simp only [Op.Renamed, labelOfPlace, hplace, Option.bind_some, hl', Option.getD_some]
  | _ => exact h

/-! ### Assembling again -/

def CodeOf.tidy (c : Code) : Code := { c with lines := lineChanges c.lineFor c.code.length }

theorem CodeOf.lineFor_tidy (hc : c.code.length ≤ 4294967296) {i : Nat}
    (hi : i < c.code.length) : c.tidy.lineFor i = c.lineFor i :=
  lineIn_lineChanges hc hi c.firstLine

theorem CodeOf.tidy_tidy (hc : c.code.length ≤ 4294967296) : c.tidy.tidy = c.tidy := by
  have hlines : lineChanges c.tidy.lineFor c.code.length = lineChanges c.lineFor c.code.length :=
    lineChanges_congr fun i hi => CodeOf.lineFor_tidy hc hi
  show { c with lines := lineChanges c.tidy.lineFor c.code.length } = c.tidy
  rw [hlines]
  rfl

section

variable (h : Assembled fileName ops header c)
include h

theorem Assembled.nodup_varNames : c.varNames.Nodup :=
  keeps_of_encode (P := fun p => (p.get .locals).Nodup)
    (fun _ _ _ _ _ _ harg => (step_of_argument harg).nodup) h.encode_eq
    h.parameters

theorem Assembled.between (hc : c.Addressable) :
    Pools.Between header.pools
      (Header.ofCode c).pools c.pools where
  consts := rfl
  lower pool := by
    cases pool with
    | locals => exact h.args_prefix_ofCode hc
    | names => exact prefix_rfl
    | free => exact h.upto.names .free
  upper pool := by
    cases pool with
    | locals => exact take_prefix _ _
    | names => exact h.upto.names .names
    | free => exact prefix_rfl

theorem Assembled.flags_ofCode {ops' : Stream}
    (hops' : ops'.any Op.isDynamicName = ops.any Op.isDynamicName) :
    flags ops' (Header.ofCode c) c.freeVars = c.flags := by
  obtain ⟨hvarArgs, hvarKeywords, hnewLocals⟩ := contains_flags ops header c.freeVars
  simp only [h.flags_eq, flags, hops', Header.ofCode] at hvarArgs hvarKeywords hnewLocals ⊢
  rw [hvarArgs, hvarKeywords, hnewLocals]

end

theorem exists_lookup_of_readBack (h : List.Forall₂ (Op.ReadBack ops targets) a b) {o : JumpOp}
    (hl : .jump o l ∈ a) :
    ∃ place l', position? l 0 ops = some place ∧ targets.lookup place = some l' := by
  induction h with
  | nil => cases hl
  | cons hop _ ih =>
    rcases mem_cons.1 hl with rfl | hl
    · obtain ⟨place, l', -, hplace, hl'⟩ := hop
      exact ⟨place, l', hplace, hl'⟩
    · exact ih hl

/-- All that is known of the stream that a unit is taken apart to. -/
structure TakenApart (ops : Stream) (c : Code) (ls ls' : Labels) (targets : Targets)
    (read : Stream) : Prop where
  targets_eq : OfCode.targetLabels c.code.length 0 [] ls c.code = (.ok targets, ls')
  labelling : Labelling (Leads 0 c.code) ls.allocated targets ls'
  leads_le : ∀ place, Leads 0 c.code place → place ≤ c.code.length
  read_eq : operations c targets 0 c.code = .ok read
  readBack : List.Forall₂ (Op.ReadBack ops targets) (reals ops) (reals read)

theorem Assembled.exists_takenApart (h : Assembled fileName ops header c) (hc : c.Addressable)
    (ls : Labels) :
    ∃ ls' targets read, TakenApart ops c ls ls' targets read ∧
      ∀ (whole : Stream) (q : Pools),
        Pools.Between header.pools q c.pools →
        (∀ place l, targets.lookup place = some l → position? l 0 whole = some place) →
        encode whole 0 q read = .ok (c.code, c.pools) := by
  have hplaces : ∀ place, Leads 0 c.code place → place ≤ c.code.length := fun place =>
    h.leads_le hc
  obtain ⟨targets, ls', htargets, hlabels⟩ := exists_labelling ls hplaces
  have hhas : ∀ (k : Nat) (i : Instruction) place, c.code[k]? = some i →
      i.target (0 + k) = some place → (targets.lookup place).isSome := fun k i place hi hplace =>
    (hlabels.isSome_iff place).2 ⟨k, i, hi, hplace⟩
  obtain ⟨read, hread, hback, hagain⟩ :=
    operations_of_encode h.encode_eq hc (h.size_lt hc) List.Pairwise.nil hhas
  exact ⟨ls', targets, read, ⟨htargets, hlabels, hplaces, hread, hback⟩, hagain⟩

namespace TakenApart

variable {ls ls' : Labels} {targets : Targets} {read : Stream}

variable (h : TakenApart ops c ls ls' targets read)
include h

theorem toStream_eq : c.toStream ls = (.ok (stream c targets read), ls') := by
  rw [OfCode.toStream_eq h.targets_eq, h.read_eq]
  rfl

theorem position?_eq (hl : targets.lookup place = some l) :
    position? l 0 (stream c targets read) = some place :=
  position?_stream h.labelling h.leads_le h.read_eq hl

theorem renamed : List.Forall₂ (Op.Renamed (labelOfPlace ops targets)) (reals ops)
      (reals (stream c targets read)) := by
  rw [reals_stream]
  exact h.readBack.imp fun _ _ hop => hop.renamed

theorem position?_labelOfPlace (hl : l ∈ references ops) :
    position? (labelOfPlace ops targets l) 0 (stream c targets read) = position? l 0 ops := by
  obtain ⟨o, ho⟩ := mem_references_iff.1 hl
  obtain ⟨place, l', hplace, hl'⟩ :=
    exists_lookup_of_readBack h.readBack (mem_filter.2 ⟨ho, rfl⟩)
  simp only [labelOfPlace, hplace, Option.bind_some, hl', Option.getD_some]
  exact h.position?_eq hl'

end TakenApart

theorem Assembled.exists_toStream (h : Assembled fileName ops header c) (hc : c.Addressable)
    (ls : Labels) :
    ∃ ops' ls' rename, c.toStream ls = (.ok ops', ls') ∧
      List.Forall₂ (Op.Renamed rename) (reals ops) (reals ops') ∧
      (∀ l ∈ references ops, position? (rename l) 0 ops' = position? l 0 ops) ∧
      Assembled fileName ops' (Header.ofCode c) c.tidy := by
  obtain ⟨ls', targets, read, happart, hagain⟩ := h.exists_takenApart hc ls
  refine ⟨stream c targets read, ls', labelOfPlace ops targets, happart.toStream_eq,
    happart.renamed, fun l => happart.position?_labelOfPlace, ?_⟩
  have hdynamic : (stream c targets read).any Op.isDynamicName = ops.any Op.isDynamicName := by
    refine any_isDynamicName_eq (fun op op' hop => ?_)
      ((reals_stream c read).symm ▸ happart.readBack)
    exact hop.congr Op.isDynamicName (fun _ _ => rfl) (fun _ _ _ => rfl)
  exact {
    labels := checkLabels_stream happart.labelling happart.leads_le happart.read_eq
    parameters := h.nodup_varNames.sublist (take_sublist _ _)
    encode_eq := (encode_stream _ _ _ _).trans
      (hagain _ _ (h.between hc) fun _ _ => happart.position?_eq)
    stackSize_eq := h.stackSize_none
    argCount_eq := by rw [h.argCount_ofCode hc]; exact h.argCount_eq
    numLocals_eq := h.numLocals_eq
    flags_eq := (h.flags_ofCode hdynamic).symm
    fileName_eq := h.fileName_eq
    name_eq := rfl
    firstLine_eq := rfl
    lines_eq := (lineTable_stream (h.ordered hc) h.code_ne_nil hc.code.le happart.read_eq).symm
    docString_eq := rfl }

/-- Taking an assembled unit apart and assembling it again gives it back up to its line table, with
the same line for every instruction.  The operations are those that the unit was assembled from.
A second time nothing changes. -/
theorem assemble_toStream (fileName : String) (ops : Stream) (header : Header) (code : Code)
    (hcode : assemble fileName ops header = .ok code) (haddressable : code.Addressable) :
    ∀ ls, ∃ ops' ls', code.toStream ls = (.ok ops', ls') ∧
      (∃ rename, List.Forall₂ (Op.Renamed rename) (reals ops) (reals ops') ∧
        ∀ l ∈ references ops, position? (rename l) 0 ops' = position? l 0 ops) ∧
      ∃ code', assemble fileName ops' (Header.ofCode code) = .ok code' ∧
        code' = { code with lines := code'.lines } ∧
        (∀ i < code.code.length, code'.lineFor i = code.lineFor i) ∧
        ∀ ls₂, ∃ ops₂ ls₂', code'.toStream ls₂ = (.ok ops₂, ls₂') ∧
          assemble fileName ops₂ (Header.ofCode code') = .ok code' := by
  intro ls
  have h := assemble_eq_ok_iff.1 hcode
  have hle := haddressable.code.le
  obtain ⟨ops', ls', rename, hstream, hreals, hplaces, hagain⟩ :=
    h.exists_toStream haddressable ls
  refine ⟨ops', ls', hstream, ⟨rename, hreals, hplaces⟩, code.tidy, assemble_eq_ok_iff.2 hagain,
    rfl, fun i hi => CodeOf.lineFor_tidy hle hi, fun ls₂ => ?_⟩
  have htidy : code.tidy.Addressable := ⟨haddressable.code, haddressable.consts, haddressable.names⟩
  obtain ⟨ops₂, ls₂', -, hstream₂, -, -, hagain₂⟩ := hagain.exists_toStream htidy ls₂
  rw [CodeOf.tidy_tidy hle] at hagain₂
  exact ⟨ops₂, ls₂', hstream₂, assemble_eq_ok_iff.2 hagain₂⟩

def countdown : Stream :=
  [.line 3, .const (.int 1), .name .storeFast "x", .line 3, .mark ⟨0⟩, .name .loadFast "x",
   .jump .popJumpIfFalse ⟨1⟩, .line 5, .jump .jumpAbsolute ⟨0⟩, .mark ⟨1⟩, .const (.int 1),
   .bare .returnValue, .line 9, .jump .jumpForward ⟨2⟩, .mark ⟨2⟩, .line 10]

def countdownHeader : Header := { name := "countdown", varArgs := true, firstLine := 1 }

def countdownUnit : Code where
  numLocals := 1
  stackSize := 1
  flags := ⟨0x45⟩
  code := [⟨.loadConst, 0⟩, ⟨.name .storeFast, 0⟩, ⟨.name .loadFast, 0⟩, ⟨.jump .popJumpIfFalse, 5⟩,
    ⟨.jump .jumpAbsolute, 2⟩, ⟨.loadConst, 0⟩, ⟨.bare .returnValue, 0⟩, ⟨.jump .jumpForward, 0⟩]
  varNames := ["x"]
  fileName := "loops"
  name := "countdown"
  firstLine := 1
  lines := [(0, 3), (4, 5), (7, 9), (8, 10)]
  consts := [.int 1]

/-- The loop is assembled, and its unit makes the round trip. -/
theorem countdown_toStream :
    assemble "loops" countdown countdownHeader = .ok countdownUnit ∧ countdownUnit.Addressable ∧
      ∃ ops' ls', countdownUnit.toStream ⟨3⟩ = (.ok ops', ls') ∧
        (∃ rename, List.Forall₂ (Op.Renamed rename) (reals countdown) (reals ops') ∧
          ∀ l ∈ references countdown, position? (rename l) 0 ops' = position? l 0 countdown) ∧
        ∃ code', assemble "loops" ops' (Header.ofCode countdownUnit) = .ok code' ∧
          code' = { countdownUnit with lines := code'.lines } ∧
          (∀ i < 8, code'.lineFor i = countdownUnit.lineFor i) ∧
          ∀ ls₂, ∃ ops₂ ls₂', code'.toStream ls₂ = (.ok ops₂, ls₂') ∧
            assemble "loops" ops₂ (Header.ofCode code') = .ok code' := by
  have hcode : assemble "loops" countdown countdownHeader = .ok countdownUnit := by cbv
  have haddressable : countdownUnit.Addressable :=
    ⟨by decide, by decide, fun pool => by cases pool <;> decide⟩
  exact ⟨hcode, haddressable,
    assemble_toStream "loops" countdown countdownHeader countdownUnit hcode haddressable ⟨3⟩⟩

end Bytewright
