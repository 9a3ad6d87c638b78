import Bytewright.Proofs.Tracing.Woven

/-!
# Nested code is traced

Code that shares the scope of its caller is traced where it is loaded as a constant: it is taken
apart, traced, and assembled again under the header that it is known to have had.
-/

namespace Bytewright

open Assemble List OfCode

/-! ### Constants of a unit -/

variable {k : Const} {c : Code} {ops : Stream}

theorem nesting_le_nestingOfConsts {ks : List Const} (h : k ∈ ks) :
    k.nesting ≤ nestingOfConsts ks := by
  induction ks with
  | nil => cases h
  | cons k' ks ih =>
    rw [nestingOfConsts]
    rcases mem_cons.1 h with rfl | h
    · exact le_max_left _ _
    · exact (ih h).trans (le_max_right _ _)

theorem nesting_code (c : Code) : (Const.code c).nesting = nestingOfConsts c.consts + 1 := by
  rw [Const.nesting]

theorem mem_consts_of_operations {targets : Targets} {index : Nat} {code : List Instruction}
    (h : operations c targets index code = .ok ops) (hk : .const k ∈ ops) : k ∈ c.consts := by
  induction code generalizing index ops with
  | nil =>
    cases h
    cases hk
  | cons i code ih =>
    obtain ⟨op, tail, hop, htail, rfl⟩ := operations_cons_eq_ok_iff.1 h
    rcases mem_append.1 hk with hk | hk
    · rcases mem_append.1 hk with hk | hk
      · cases opcode_of_mem_markAt hk
      · cases opcode_of_mem_lineAt hk
    · rcases mem_cons.1 hk with rfl | hk
      · have hopcode := opcode_of_operation hop
        obtain ⟨opcode, arg⟩ := i
        cases hopcode
        simp only [operation] at hop
        split at hop
        · next hget =>
          cases hop
          exact mem_of_getElem? hget
        · cases hop
      · exact ih htail hk

theorem mem_consts_of_toStream {ls ls' : Labels} (h : c.toStream ls = (.ok ops, ls'))
    (hk : .const k ∈ ops) : k ∈ c.consts := by
  obtain ⟨targets, read, -, hread, rfl⟩ := exists_of_toStream h
  rw [stream, append_assoc] at hk
  rcases mem_append.1 hk with hk | hk
  · exact mem_consts_of_operations hread hk
  · cases opcode_of_mem_ending hk

namespace Tracing

theorem nesting_le (h : .const k ∈ ops) : k.nesting ≤ nesting ops := by
  induction ops with
  | nil => cases h
  | cons op ops ih =>
    rcases mem_cons.1 h with rfl | h
    · exact le_max_left _ _
    · have hle := ih h
      cases op with
      | const k' => exact hle.trans (le_max_right _ _)
      | _ => exact hle

/-! ### Streams that are read back -/

variable {rename : Label → Label}

theorem report_of_renamed {op op' : Op} (h : op.Renamed rename op') :
    report op' = report op ∧ op'.isReal = op.isReal := by
  cases op with
  | const k =>
    obtain ⟨k', rfl, -⟩ := h
    exact ⟨rfl, rfl⟩
  | _ =>
    cases h
    exact ⟨rfl, rfl⟩

theorem size_traced_of_renamed {a b : Stream} (h : List.Forall₂ (Op.Renamed rename) a b) :
    size (traced b) = size (traced a) := by
  induction h with
  | nil => rfl
  | cons hop _ ih =>
    obtain ⟨hreport, hreal⟩ := report_of_renamed hop
    rw [traced_cons, traced_cons, size_append, size_append, hreport]
    congr 1
    rw [size, size, countP_cons, countP_cons, hreal]
    exact congrArg (· + _) ih

/-! ### What a traced unit keeps -/

/-- The units have the same signature. -/
structure Keeps (c t : Code) : Prop where
  argCount_eq : t.argCount = c.argCount
  flags_eq : t.flags.union .optimized = c.flags.union .optimized
  varNames_eq : t.varNames = c.varNames
  freeVars_eq : t.freeVars = c.freeVars
  name_eq : t.name = c.name
  fileName_eq : t.fileName = c.fileName
  firstLine_eq : t.firstLine = c.firstLine
  docString_eq : t.docString = c.docString
  deepened : Deepened c t

theorem union_optimized_flags (ops ops' : Stream) (header : Header) (freeVars : List String) :
    (flags ops header freeVars).union .optimized =
      (flags ops' header freeVars).union .optimized := by
  simp only [flags]
  generalize (!ops.any Op.isDynamicName) = optimized, (!ops'.any Op.isDynamicName) = optimized',
    freeVars.isEmpty = noFree, header.varArgs = varArgs, header.varKeywords = varKeywords,
    header.newLocals = newLocals
  revert optimized optimized' noFree varArgs varKeywords newLocals
  decide

theorem keeps_of_assembled {fileName : String} {header : Header} {t : Code} {f : Code → Code}
    (hc : Assembled fileName ops header c) (ht : Assembled fileName (woven f true ops) header t)
    (hdeepened : Deepened c t) : Keeps c t := by
  have hscope : t.pools.scope = c.pools.scope := by
    rw [scope_of_encode ht.encode_eq, scope_of_encode hc.encode_eq, scope_woven]
  obtain ⟨hvarNames, hfreeVars⟩ := Prod.mk.inj hscope
  refine ⟨ht.argCount_eq.trans hc.argCount_eq.symm, ?_, hvarNames, hfreeVars,
    ht.name_eq.trans hc.name_eq.symm, ht.fileName_eq.trans hc.fileName_eq.symm,
    ht.firstLine_eq.trans hc.firstLine_eq.symm, ht.docString_eq.trans hc.docString_eq.symm,
    hdeepened⟩
  rw [ht.flags_eq, hc.flags_eq, show t.freeVars = c.freeVars from hfreeVars]
  exact union_optimized_flags _ _ _ _

/-! ### Units -/

/-- The unit was assembled, with room for reports, and so was the nested code in it, at every depth.
-/
inductive Traceable : Code → Prop
  | intro {fileName : String} {ops : Stream} {header : Header} {c : Code}
      (hassemble : assemble fileName ops header = .ok c)
      (hroom : c.stackSize.toNat ≤ 4294967290) (haddressable : c.Addressable)
      (hsize : size (traced ops) < 4294967296) (hinner : ∀ k, Shares ops k → Traceable k) :
      Traceable c

/-- The second unit is the first one traced, and so is the nested code in it, at every depth. -/
inductive TracedUnit : Code → Code → Prop
  | intro {c t : Code} {ops : Stream} {f : Code → Code} (hops : (c.toStream {}).1 = .ok ops)
      (hassemble : assemble c.fileName (woven f true ops) (Header.ofCode c) = .ok t)
      (hkeeps : Keeps c t) (hinner : ∀ k, Shares ops k → TracedUnit k (f k)) : TracedUnit c t

theorem exists_unit {depth : Nat} (h : Traceable c) (hdepth : (Const.code c).nesting ≤ depth) :
    ∃ t, unit depth c = .ok t ∧ TracedUnit c t := by
  induction h generalizing depth with
  | @intro fileName ops header c hassemble hroom haddressable hsize _ ih =>
    rw [nesting_code] at hdepth
    obtain ⟨depth, rfl⟩ : ∃ d, depth = d + 1 := ⟨depth - 1, by omega⟩
    have hc := assemble_eq_ok_iff.1 hassemble
    obtain ⟨ops', ls', rename, hstream, hrenamed, -, hagain⟩ := hc.exists_toStream haddressable {}
    -- nested code of what was read is nested code of the stream
    have hunits (k : Code) (hk : Shares ops' k) : ∃ t, unit depth k = .ok t ∧ TracedUnit k t := by
      have hmem : .code k ∈ c.consts := mem_consts_of_toStream hstream hk.1
      have hops : .const (.code k) ∈ ops :=
        (mem_consts_of_encode hc.encode_eq hmem).resolve_left not_mem_nil
      have hle := nesting_le_nestingOfConsts hmem
      exact ih k ⟨hops, hk.2⟩ (by omega)
    choose! f hf htraced using hunits
    have hsize' : size (traced ops') < 4294967296 := by
      rwa [← size_traced_reals, size_traced_of_renamed hrenamed, size_traced_reals]
    obtain ⟨t, ht, hdeepened⟩ :=
      exists_assembled_woven hagain hsize' hroom hagain.parameters rfl f true
    have hkeeps := keeps_of_assembled hagain ht hdeepened
    have hassemble' : assemble c.fileName (woven f true ops') (Header.ofCode c) = .ok t := by
      rw [hc.fileName_eq]
      exact assemble_eq_ok_iff.2 ht
    refine ⟨t, ?_, .intro (by rw [hstream]) hassemble' ?_ htraced⟩
    · rw [unit, hstream]
      dsimp only
      rw [stream_eq_woven hf]
      exact hassemble'
    · exact ⟨hkeeps.argCount_eq, hkeeps.flags_eq, hkeeps.varNames_eq, hkeeps.freeVars_eq,
        hkeeps.name_eq, hkeeps.fileName_eq, hkeeps.firstLine_eq, hkeeps.docString_eq,
        hkeeps.deepened⟩

end Tracing

open Tracing in
/-- A stream that is assembled without a declared maximum can be traced, whichever way it reads the
tracer, if its reports can be addressed, its stack may be deeper by five values, and the code in it
that shares its scope is traceable.  The traced stream is assembled under the same header, and with
the tracer as the first parameter as well, to a unit whose stack is at least as deep and deeper by
at most five values. -/
theorem injectTracing_assembles (fileName : String) (ops : Stream) (header : Header) (c : Code)
    (hassemble : assemble fileName ops header = .ok c) (hmax : header.maxStackSize = none)
    (hroom : c.stackSize.toNat ≤ 4294967290) (hsize : size (traced ops) < 4294967296)
    (hinner : ∀ k, Shares ops k → Traceable k) :
    ∃ f, (∀ k, Shares ops k → TracedUnit k (f k)) ∧ ∀ nested,
      injectTracing ops nested = .ok (woven f nested ops) ∧
      (∃ t, assemble fileName (woven f nested ops) header = .ok t ∧ Deepened c t) ∧
      (slot ∉ header.args → ∃ t, assemble fileName (woven f nested ops)
        { header with args := slot :: header.args } = .ok t ∧ Deepened c t) := by
  have hc := assemble_eq_ok_iff.1 hassemble
  have hunits (k : Code) (hk : Shares ops k) :
      ∃ t, unit (nesting ops) k = .ok t ∧ TracedUnit k t :=
    Tracing.exists_unit (hinner k hk) (nesting_le hk.1)
  choose! f hf htraced using hunits
  refine ⟨f, htraced, fun nested => ⟨stream_eq_woven hf, ?_, fun hslot => ?_⟩⟩
  · obtain ⟨t, ht, hdeepened⟩ :=
      exists_assembled_woven hc hsize hroom hc.parameters hmax f nested
    exact ⟨t, assemble_eq_ok_iff.2 ht, hdeepened⟩
  · have hargs : Header.args { header with args := slot :: header.args } |>.Nodup :=
      List.nodup_cons.2 ⟨hslot, hc.parameters⟩
    obtain ⟨t, ht, hdeepened⟩ := exists_assembled_woven hc hsize hroom hargs hmax f nested
    exact ⟨t, assemble_eq_ok_iff.2 ht, hdeepened⟩

namespace Tracing

def peek : Stream := [.name .loadName "x", .name .loadAttr "y", .bare .returnValue]

def peekUnit : Code where
  stackSize := 1
  flags := ⟨0x40⟩
  code := [⟨.name .loadName, 0⟩, ⟨.name .loadAttr, 1⟩, ⟨.bare .returnValue, 0⟩]
  names := ["x", "y"]
  fileName := "nested"
  name := "peek"
  firstLine := 0

def relay : Stream :=
  [.name .loadFast "f", .const (.code peekUnit), plainCall 1, .bare .returnValue]

def relayUnit : Code where
  argCount := 1
  numLocals := 1
  stackSize := 2
  flags := ⟨0x41⟩
  code := [⟨.name .loadFast, 0⟩, ⟨.loadConst, 0⟩, ⟨.call .callFunction, 1⟩, ⟨.bare .returnValue, 0⟩]
  varNames := ["f"]
  fileName := "nested"
  name := "relay"
  firstLine := 0
  consts := [.code peekUnit]

def rounds : Stream :=
  [.const (.code relayUnit), .bare .getIter, .mark ⟨0⟩, .jump .forIter ⟨1⟩, .bare .popTop,
   .jump .jumpAbsolute ⟨0⟩, .mark ⟨1⟩, .const .none, .bare .returnValue]

def roundsUnit : Code where
  stackSize := 2
  flags := ⟨0x41⟩
  code := [⟨.loadConst, 0⟩, ⟨.bare .getIter, 0⟩, ⟨.jump .forIter, 2⟩, ⟨.bare .popTop, 0⟩,
    ⟨.jump .jumpAbsolute, 2⟩, ⟨.loadConst, 1⟩, ⟨.bare .returnValue, 0⟩]
  fileName := "nested"
  name := "rounds"
  firstLine := 0
  consts := [.code relayUnit, .none]

/-- The loop is traced, with the code in it and the code in that. -/
theorem rounds_injectTracing :
    assemble "nested" rounds { name := "rounds" } = .ok roundsUnit ∧ Shares rounds relayUnit ∧
      Shares relay peekUnit ∧ Traceable relayUnit ∧
      ∃ f, TracedUnit relayUnit (f relayUnit) ∧ ∀ nested,
        injectTracing rounds nested = .ok (woven f nested rounds) ∧
        (∃ t, assemble "nested" (woven f nested rounds) { name := "rounds" } = .ok t ∧
          Deepened roundsUnit t) ∧
        ∃ t, assemble "nested" (woven f nested rounds) { name := "rounds", args := [slot] } =
          .ok t ∧ Deepened roundsUnit t := by
  have hpeek : Traceable peekUnit := by
    refine .intro (show assemble "nested" peek { name := "peek" } = .ok _ by cbv)
      (by decide) ⟨by decide, by decide, fun pool => by cases pool <;> decide⟩ (by decide) ?_
    rintro k ⟨hk, -⟩
    simp [peek] at hk
  have hrelay : Traceable relayUnit := by
    refine .intro (show assemble "nested" relay { name := "relay", args := ["f"] } = .ok _ by cbv)
      (by decide) ⟨by decide, by decide, fun pool => by cases pool <;> decide⟩ (by decide) ?_
    rintro k ⟨hk, -⟩
    obtain rfl : k = peekUnit := by simpa [relay, plainCall] using hk
    exact hpeek
  have hassemble : assemble "nested" rounds { name := "rounds" } = .ok roundsUnit := by cbv
  have hshares : Shares rounds relayUnit := ⟨List.mem_cons_self, by decide⟩
  obtain ⟨f, hf, htraced⟩ := injectTracing_assembles "nested" rounds { name := "rounds" }
    roundsUnit hassemble rfl (by decide) (by decide) fun k hk => by
      obtain rfl : k = relayUnit := by simpa [rounds] using hk.1
      exact hrelay
  refine ⟨hassemble, hshares, ⟨by simp [relay], by decide⟩, hrelay, f, hf _ hshares,
    fun nested => ?_⟩
  obtain ⟨hinject, hplain, hslot⟩ := htraced nested
  exact ⟨hinject, hplain, hslot List.not_mem_nil⟩

end Tracing

end Bytewright
