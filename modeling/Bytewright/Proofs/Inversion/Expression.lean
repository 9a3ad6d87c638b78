import Bytewright.Proofs.Evaluate.Unit
import Bytewright.Proofs.Inversion.Stream

/-!
# Expressions that can be inverted

A conditional expression ends with the label at which its branches meet, and the label is found
again when its unit is taken apart.
-/

namespace Bytewright

open Assemble OfCode List

/-- The inverse of the expression is a store. -/
def Expr.isPlace : Expr → Bool
  | .name _ | .attribute _ _ | .subscript _ _ | .call _ _ _ => true
  | _ => false

variable {e : Expr}

namespace Inversion

/-! ### Loads that are replaced -/

variable {ops front : Stream} {op load : Op} {alone : Bool}

theorem isSome_replace?_iff : (replace? alone load).isSome = true ↔
    load.opcode ∈ [some (.name .loadAttr), some (.call .callFunction), some (.bare .binarySubscr)] ∨
      alone = true ∧ load.opcode = some (.name .loadName) := by
  cases load with
  | name o x =>
    cases o with
    | loadName => cases alone <;> simp [replace?, Op.opcode]
    | _ => simp [replace?, Op.opcode]
  | bare o | call o args kwds => cases o <;> simp [replace?, Op.opcode]
  | _ => simp [replace?, Op.opcode]

theorem Ends.injectInversion_iff (h : Ends ops front load) :
    (∃ inverted, injectInversion ops = .ok inverted) ↔
      (replace? (front.all isLine) load).isSome = true := by
  have hload : finalLoad? ops = some (load, front.reverse) :=
    finalLoad?_eq_some_iff.2 (by rwa [reverse_reverse])
  constructor
  · rintro ⟨inverted, hinverted⟩
    obtain ⟨front', load', store, hends, hstore, -⟩ := injectInversion_eq_ok_iff.1 hinverted
    have hload' : finalLoad? ops = some (load', front'.reverse) :=
      finalLoad?_eq_some_iff.2 (by rwa [reverse_reverse])
    obtain ⟨rfl, hfront⟩ := Prod.mk.injEq .. ▸ Option.some.inj (hload.symm.trans hload')
    rw [reverse_inj.1 hfront, hstore]
    rfl
  · intro hsome
    obtain ⟨store, hstore⟩ := Option.isSome_iff_exists.1 hsome
    exact ⟨_, injectInversion_eq_ok_iff.2 ⟨front, load, store, h, hstore, rfl⟩⟩

/-! ### Streams that units are taken apart into -/

section TakenApart

variable {fileName : String} {header : Header} {c : Code} {ls ls' : Labels} {targets : Targets}
  {read : Stream} {place : Nat}

theorem isLine_of_mem_lineAt {index : Nat} (h : op ∈ lineAt c index) : isLine op = true := by
  rcases lineAt_eq_nil_or c index with hnil | ⟨n, hline⟩
  · rw [hnil] at h
    cases h
  · rw [hline, mem_singleton] at h
    rw [h]
    rfl

theorem leads_le_size {back : Stream} (h : Assembled fileName (front ++ back) header c)
    (hc : c.Addressable) (hback : marks back = []) (hplace : Leads 0 c.code place) :
    place ≤ size front := by
  obtain ⟨l, -, hl⟩ := exists_position?_of_leads (h.size_lt hc) h.encode_eq hplace
  rw [position?_of_marks (by rw [marks_append, hback, append_nil])] at hl
  have hbounds := (position?_bounds hl).2
  omega

theorem markAt_eq_nil (h : TakenApart ops c ls ls' targets read) (hplace : ¬Leads 0 c.code place) :
    markAt targets place = [] := by
  have hnone : targets.lookup place = none := by
    rw [← Option.not_isSome_iff_eq_none, h.labelling.isSome_iff]
    exact hplace
  rw [markAt, hnone]
  rfl

theorem stream_eq (h : Assembled fileName ops header c) :
    stream c targets read = read ++ markAt targets c.code.length := by
  have hempty : c.code.isEmpty = false := by simpa using h.code_ne_nil
  rw [stream, hempty, if_neg (by simp), append_nil]

theorem exists_ends_of_isReal
    (h : Assembled fileName (front ++ [op, .bare .returnValue]) header c) (hc : c.Addressable)
    (hop : op.isReal = true) (hjump : ∀ o l, op ≠ .jump o l)
    (htaken : TakenApart (front ++ [op, .bare .returnValue]) c ls ls' targets read) :
    ∃ front' op', Ends (stream c targets read) front' op' ∧ op'.opcode = op.opcode ∧
      (size front = 0 → front'.all isLine = true) := by
  have hback : marks [op, .bare .returnValue] = [] := by
    rw [marks_cons_of_isReal hop]
    rfl
  obtain ⟨opcode, hopcode⟩ := exists_opcode_of_isReal hop
  obtain ⟨mid, first, rest, hfirst, hrest, hcode⟩ := encode_append_eq_ok_iff.1 h.encode_eq
  obtain ⟨arg, mid', tail, harg, htail, rfl⟩ := (encode_cons_eq_ok_iff hopcode).1 hrest
  obtain ⟨arg', mid'', tail, ⟨⟩, ⟨⟩, rfl⟩ := (encode_cons_eq_ok_iff rfl).1 htail
  have hlength : first.length = size front := length_of_encode hfirst
  have htotal : c.code.length = size front + 2 := by
    rw [hcode, length_append, hlength]
    rfl
  have hread := htaken.read_eq
  rw [hcode] at hread
  obtain ⟨a, b, ha, hb, rfl⟩ := operations_append_eq_ok_iff.1 hread
  rw [Nat.zero_add, hlength] at hb
  obtain ⟨op', b', hop', hb', rfl⟩ := operations_cons_eq_ok_iff.1 hb
  obtain ⟨_, _, ⟨⟩, ⟨⟩, rfl⟩ := operations_cons_eq_ok_iff.1 hb'
  have hmark (place : Nat) (hplace : size front < place) : markAt targets place = [] :=
    markAt_eq_nil htaken fun hleads => by
      have := leads_le_size h hc hback hleads
      omega
  refine ⟨a ++ (markAt targets (size front) ++ lineAt c (size front)), op',
    ⟨?_, lineAt c (size front + 1), [], ?_, ?_⟩, (opcode_of_operation hop').trans hopcode.symm,
    fun hsize => ?_⟩
  · have hreal := isReal_of_operation hop'
    cases op' with
    | line => cases hreal
    | _ => rfl
  · rw [append_nil]
    exact fun o => isLine_of_mem_lineAt
  · rw [stream_eq h, hmark c.code.length (by omega), hmark (size front + 1) (by omega)]
    simp
  · -- nothing stands before the operation, so nothing jumps
    obtain rfl : first = [] := length_eq_zero_iff.1 (hlength.trans hsize)
    cases ha
    have hnone : markAt targets (size front) = [] := by
      refine markAt_eq_nil htaken fun hleads => ?_
      obtain ⟨l, hl, -⟩ := exists_position?_of_leads (h.size_lt hc) h.encode_eq hleads
      obtain ⟨o, ho⟩ := mem_references_iff.1 hl
      simp only [mem_append, mem_cons, not_mem_nil, or_false, reduceCtorEq] at ho
      rcases ho with ho | ho
      · exact countP_eq_zero.1 hsize _ ho rfl
      · exact hjump o l ho.symm
    rw [hnone, nil_append, nil_append, all_eq_true]
    exact fun o => isLine_of_mem_lineAt

theorem exists_ends_of_mark {l : Label}
    (h : Assembled fileName (front ++ [.mark l, .bare .returnValue]) header c)
    (hc : c.Addressable) (hl : l ∈ references front)
    (htaken : TakenApart (front ++ [.mark l, .bare .returnValue]) c ls ls' targets read) :
    ∃ front' l', Ends (stream c targets read) front' (.mark l') := by
  obtain ⟨mid, first, rest, hfirst, hrest, hcode⟩ := encode_append_eq_ok_iff.1 h.encode_eq
  rw [encode_cons_of_marker rfl] at hrest
  obtain ⟨arg, mid', tail, ⟨⟩, ⟨⟩, rfl⟩ := (encode_cons_eq_ok_iff rfl).1 hrest
  have hlength : first.length = size front := length_of_encode hfirst
  have htotal : c.code.length = size front + 1 := by
    rw [hcode, length_append, hlength]
    rfl
  have hread := htaken.read_eq
  rw [hcode] at hread
  obtain ⟨a, b, ha, hb, rfl⟩ := operations_append_eq_ok_iff.1 hread
  rw [Nat.zero_add, hlength] at hb
  obtain ⟨_, _, ⟨⟩, ⟨⟩, rfl⟩ := operations_cons_eq_ok_iff.1 hb
  -- the label has the place of the return, and the place has a label
  have hplace : position? l 0 (front ++ [.mark l, .bare .returnValue]) = some (size front) := by
    have hnodup := (checkLabels_eq_ok_iff.1 h.labels).1
    rw [marks_append] at hnodup
    have hnotMem : l ∉ marks front := fun hmem =>
      (disjoint_of_nodup_append hnodup) hmem mem_cons_self
    rw [position?_append, position?_eq_none_of_notMem hnotMem, Option.none_or, Nat.zero_add]
    simp [position?]
  obtain ⟨o, ho⟩ := mem_references_iff.1 hl
  obtain ⟨place, l', hplace', hl'⟩ := exists_lookup_of_readBack htaken.readBack
    (mem_filter.2 ⟨mem_append_left _ ho, rfl⟩)
  obtain rfl : size front = place := Option.some.inj (hplace.symm.trans hplace')
  have hmark : markAt targets (size front) = [.mark l'] := by
    rw [markAt, hl']
    rfl
  have hlast : markAt targets c.code.length = [] := markAt_eq_nil htaken fun hleads => by
    have hsplit : Assembled fileName ((front ++ [.mark l]) ++ [.bare .returnValue]) header c := by
      rwa [append_assoc]
    have hle := leads_le_size hsplit hc rfl hleads
    rw [size_append] at hle
    have hzero : size [.mark l] = 0 := rfl
    omega
  refine ⟨a, l', rfl, lineAt c (size front), [], ?_, ?_⟩
  · rw [append_nil]
    exact fun o => isLine_of_mem_lineAt
  · rw [stream_eq h, hlast, hmark]
    simp

end TakenApart

/-! ### Streams of expressions -/

/-- The operation that the stream of an expression ends in, with what it shows about the expression.
-/
structure Last (e : Expr) (front : Stream) (op : Op) : Prop where
  isLine_eq : isLine op = false
  ne_jump : ∀ o l, op ≠ .jump o l
  mem_references : ∀ l, op = .mark l → l ∈ references front
  isPlace_iff : e.isPlace = true ↔ op.opcode = some (.name .loadName) ∨
    op.opcode ∈ [some (.name .loadAttr), some (.call .callFunction), some (.bare .binarySubscr)]
  eq_nil : op.opcode = some (.name .loadName) → front = []

theorem Last.of_other (he : e.isPlace = false) (front : Stream) {opcode : Opcode}
    (hop : op.opcode = some opcode) (hjump : ∀ o, opcode ≠ .jump o)
    (hload : opcode ∉ [.name .loadName, .name .loadAttr, .call .callFunction,
      .bare .binarySubscr]) : Last e front op := by
  simp only [mem_cons, not_mem_nil, or_false, not_or] at hload
  refine ⟨?_, ?_, ?_, ?_, ?_⟩
  · cases op with
    | line => cases hop
    | _ => rfl
  · rintro o l rfl
    cases hop
    exact hjump o rfl
  · rintro l rfl
    cases hop
  · simp [he, hop, hload]
  · intro hname
    exact absurd (Option.some.inj (hop.symm.trans hname)) hload.1

theorem emitPairs_eq_nil_or (pairs : List (Expr × Expr)) (ls : Labels) :
    (emitPairs pairs ls).1 = [] ∨ ∃ front, (emitPairs pairs ls).1 = front ++ [.bare .storeMap] := by
  induction pairs generalizing ls with
  | nil => exact .inl rfl
  | cons pair pairs ih =>
    obtain ⟨key, value⟩ := pair
    right
    simp only [emitPairs]
    rcases ih (key.emit (value.emit ls).2).2 with hnil | ⟨front, hfront⟩
    · exact ⟨_, by rw [hnil]⟩
    · exact ⟨(value.emit ls).1 ++ (key.emit (value.emit ls).2).1 ++ .bare .storeMap :: front,
        by rw [hfront]; simp⟩

theorem exists_last (e : Expr) (ls : Labels) :
    ∃ front op, (e.emit ls).1 = front ++ [op] ∧ Last e front op := by
  match e with
  | .literal k => exact ⟨[], _, rfl, .of_other rfl _ rfl (by simp) (by simp)⟩
  | .name x => exact ⟨[], _, rfl, rfl, by simp, by simp, by simp [Expr.isPlace, Op.opcode], by simp⟩
  | .attribute _ _ | .subscript _ _ | .call _ _ _ =>
    exact ⟨_, _, rfl, rfl, by simp, by simp, by simp [Expr.isPlace, Op.opcode], by simp [Op.opcode]⟩
  | .tuple items =>
    cases hconsts : constants? items with
    | some cs =>
      exact ⟨[], .const (.tuple cs), by simp only [Expr.emit, hconsts, nil_append],
        .of_other rfl _ rfl (by simp) (by simp)⟩
    | none =>
      exact ⟨(emitAll items ls).1, .count .buildTuple (UInt32.ofNat items.length),
        by simp only [Expr.emit, hconsts], .of_other rfl _ rfl (by simp) (by simp)⟩
  | .list items => exact ⟨_, _, rfl, .of_other rfl _ rfl (by simp) (by simp)⟩
  | .dict pairs =>
    rcases emitPairs_eq_nil_or pairs ls with hnil | ⟨front, hfront⟩
    · exact ⟨[], .count .buildMap (UInt32.ofNat pairs.length), by simp only [Expr.emit, hnil]; rfl,
        .of_other rfl _ rfl (by simp) (by simp)⟩
    · exact ⟨.count .buildMap (UInt32.ofNat pairs.length) :: front, .bare .storeMap,
        by simp only [Expr.emit, hfront]; rfl, .of_other rfl _ rfl (by simp) (by simp)⟩
  | .negate _ | .not _ | .binary _ _ _ | .compare _ _ _ =>
    exact ⟨_, _, rfl, .of_other rfl _ rfl (by simp) (by simp)⟩
  | .ifElse cond then_ else_ =>
    refine ⟨_, _, rfl, rfl, by simp, ?_, by simp [Expr.isPlace, Op.opcode], by simp [Op.opcode]⟩
    rintro l ⟨⟩
    exact mem_references_iff.2 ⟨.jumpForward, by simp⟩

theorem Last.injectInversion_iff {op' : Op} {front' : Stream} (h : Last e front op)
    (hends : Ends ops front' op') (hopcode : op'.opcode = op.opcode)
    (halone : front = [] → front'.all isLine = true) :
    (∃ inverted, injectInversion ops = .ok inverted) ↔ e.isPlace = true := by
  rw [hends.injectInversion_iff, isSome_replace?_iff, h.isPlace_iff, hopcode, or_comm]
  refine or_congr ⟨And.right, fun hname => ⟨halone (h.eq_nil hname), hname⟩⟩ Iff.rfl

end Inversion

open Inversion

theorem injectInversion_compiled_iff (he : e.Callable) (hsize : size (e.emit {}).1 + 1 < 4294967296)
    (fileName : String) :
    ((∃ inverted, injectInversion (.line 1 :: (e.emit {}).1 ++ [.bare .returnValue]) =
      .ok inverted) ↔ e.isPlace = true) ∧
    ∃ c, compileExpression e fileName = .ok c ∧ ∀ ls, ∃ ops ls', c.toStream ls = (.ok ops, ls') ∧
      ((∃ inverted, injectInversion ops = .ok inverted) ↔ e.isPlace = true) := by
  obtain ⟨c, hcompiled, hc, haddress⟩ := he.exists_assembled hsize fileName
  obtain ⟨front, op, hemit, hlast⟩ := exists_last e {}
  have hsplit : .line 1 :: (e.emit {}).1 ++ [.bare .returnValue] =
      (.line 1 :: front) ++ [op, .bare .returnValue] := by
    rw [hemit]
    simp
  rw [hsplit] at hc ⊢
  constructor
  · refine hlast.injectInversion_iff ⟨hlast.isLine_eq, [], [], by simp, rfl⟩ rfl ?_
    rintro rfl
    rfl
  refine ⟨c, hcompiled, fun ls => ?_⟩
  obtain ⟨ls', targets, read, htaken, -⟩ := hc.exists_takenApart haddress ls
  refine ⟨_, ls', htaken.toStream_eq, ?_⟩
  by_cases hreal : op.isReal = true
  · obtain ⟨front', op', hends, hopcode, halone⟩ :=
      exists_ends_of_isReal hc haddress hreal hlast.ne_jump htaken
    exact hlast.injectInversion_iff hends hopcode fun hnil => halone (by rw [hnil]; rfl)
  · obtain ⟨l, rfl⟩ : ∃ l, op = .mark l := by
      have hline := hlast.isLine_eq
      cases op with
      | mark l => exact ⟨l, rfl⟩
      | line => cases hline
      | _ => exact absurd rfl hreal
    have hl : l ∈ references (.line 1 :: front) := hlast.mem_references l rfl
    obtain ⟨front', l', hends⟩ := exists_ends_of_mark hc haddress hl htaken
    refine hlast.injectInversion_iff hends rfl fun hnil => ?_
    rw [hnil] at hl
    cases hl

end Bytewright
