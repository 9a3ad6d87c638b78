import Bytewright.Generator.Splice
import Bytewright.Proofs.Shape.Finish
import Bytewright.Proofs.Source.Size

/-!
# Spliced fragments are pieces

Every parseable fragment is compiled, taken apart and trimmed, unless it has more instructions than
four bytes count.
-/

namespace Bytewright

open Assemble OfCode List

/-! ### Taking a closed stream apart -/

variable {fileName : String} {header : Header} {c : Code} {front closing : Stream} {ops : Stream}
  {place : Nat} {e : Expr}

def Closing (ops : Stream) : Prop :=
  ops = [.const .none, .bare .returnValue] ∨ ops = [.bare .returnValue]

theorem Closing.isReal (h : Closing ops) : ∀ op ∈ ops, op.isReal = true := by
  rcases h with rfl | rfl <;> simp [Op.isReal]

theorem Closing.marks_eq (h : Closing ops) : marks ops = [] := by
  rcases h with rfl | rfl <;> rfl

theorem Closing.references_eq (h : Closing ops) : references ops = [] := by
  rcases h with rfl | rfl <;> rfl

theorem Closing.forward (h : Closing ops) : Forward false ops := by
  rcases h with rfl | rfl
  · exact .cons_of_ne (by simp) (.cons_of_ne (by simp) trivial)
  · exact .cons_of_ne (by simp) trivial

theorem Closing.position?_append (h : Closing closing) (l : Label) :
    position? l 0 (front ++ closing) = position? l 0 front := by
  have hnone (index : Nat) : position? l index closing = none :=
    position?_eq_none_of_notMem (by rw [h.marks_eq]; simp) index
  rw [Assemble.position?_append, hnone, Option.or_none]

theorem eq_none_of_sameAs {c : Const} (h : c.sameAs .none = true) : c = .none := by
  cases c with
  | none => rfl
  | _ => simp [Const.sameAs] at h

theorem Closing.eq_of_readBack {whole : Stream} {targets : Targets} (h : Closing closing)
    (hback : List.Forall₂ (Op.ReadBack whole targets) closing ops) : ops = closing := by
  have hconst {op : Op} (hop : Op.ReadBack whole targets (.const .none) op) :
      op = .const .none := by
    obtain ⟨k, rfl, hk⟩ := hop
    rw [hk.elim id eq_none_of_sameAs]
  have hreturn {op : Op} (hop : Op.ReadBack whole targets (.bare .returnValue) op) :
      op = .bare .returnValue := hop
  rcases h with rfl | rfl
  · rcases hback with _ | ⟨hfirst, _ | ⟨hsecond, _ | _⟩⟩
    rw [hconst hfirst, hreturn hsecond]
  · rcases hback with _ | ⟨hfirst, _ | _⟩
    rw [hreturn hfirst]

theorem Assembled.addressable (h : Assembled fileName ops header c) (hargs : header.args = [])
    (hfree : header.freeVars = []) (hsize : size ops < 4294967296) : c.Addressable := by
  obtain ⟨hconsts, hnames⟩ := length_le_of_encode h.encode_eq
  refine ⟨by rwa [length_of_encode h.encode_eq], ?_, fun pool => ?_⟩
  · exact (hconsts.trans (Nat.zero_add _).le).trans_lt hsize
  · have hle := hnames pool
    rw [CodeOf.get_pools] at hle
    have hempty : (Pools.get header.pools pool).length = 0 := by
      rw [Header.pools, hargs, hfree]
      cases pool <;> rfl
    omega

theorem Assembled.leads_bounds {first next : Nat} {ins outs : List Kind}
    (h : Assembled fileName (front ++ closing) header c) (hc : c.Addressable)
    (hfront : Piece false first next ins outs front) (hclosing : Closing closing)
    (hplace : Leads 0 c.code place) : 0 < place ∧ place ≤ size front := by
  obtain ⟨k, i, hi, htarget⟩ := hplace
  obtain ⟨op, q, q', hop, hopcode, harg, -⟩ := getElem?_of_encode h.encode_eq hi
  obtain ⟨opcode, arg⟩ := i
  cases op with
  | jump o l =>
    cases hopcode
    obtain ⟨p, hp, htarget'⟩ := exists_position?_of_argument (h.size_lt hc) harg
    rw [htarget, Option.some.injEq] at htarget'
    subst htarget'
    have hnodup : (marks (front ++ closing)).Nodup := by
      rw [marks_append, hclosing.marks_eq, append_nil]
      exact hfront.nodup
    obtain ⟨p, hp', hlt⟩ := (forward_iff 0 hnodup).1 (hfront.forward.append hclosing.forward) k o l
      hop (.inl rfl)
    rw [hp, Option.some.injEq] at hp'
    rw [hclosing.position?_append] at hp
    have hle := (position?_bounds hp).2
    omega
  | line | mark => cases hopcode
  | _ =>
    cases hopcode
    cases htarget

theorem Assembled.lineAt_eq_nil (h : Assembled fileName (front ++ closing) header c)
    (hclosing : Closing closing) (hplace : size front < place) : lineAt c place = [] := by
  have hlines : c.lines = lineTable 0 [] front := by
    rw [h.lines_eq, lineTable_append, lineTable_of_reals hclosing.isReal, reverse_reverse]
  have hnone : c.lines.reverse.find? (fun entry => entry.1.toNat == place) = none := by
    rw [find?_eq_none]
    intro e he
    rw [mem_reverse, hlines] at he
    have hle := start_le_of_mem_lineTable (fun e he => by cases he) he
    simp only [beq_iff_eq]
    omega
  rw [lineAt, hnone]
  exact if_neg (by omega)

section TakenApart

variable {ls ls' : Labels} {targets : Targets} {read : Stream} {first next : Nat}
  {ins outs : List Kind}

section

variable (happart : TakenApart (front ++ closing) c ls ls' targets read)
  (h : Assembled fileName (front ++ closing) header c) (hc : c.Addressable)
  (hfront : Piece false first next ins outs front) (hclosing : Closing closing)
include happart h hc hfront hclosing

theorem TakenApart.lookup_eq_none (hplace : place = 0 ∨ size front < place) :
    targets.lookup place = none := by
  rw [← Option.not_isSome_iff_eq_none, happart.labelling.isSome_iff]
  intro hleads
  have := h.leads_bounds hc hfront hclosing hleads
  omega

theorem TakenApart.exists_stream_eq : ∃ body, stream c targets read = body ++ closing := by
  have hlength : c.code.length = size front + size closing :=
    (length_of_encode h.encode_eq).trans (size_append _ _)
  have hpos : 0 < size closing := by
    rcases hclosing with rfl | rfl
    · exact Nat.succ_pos _
    · exact Nat.succ_pos _
  have hreal : reals closing = closing := filter_eq_self.2 hclosing.isReal
  have hnone : ∀ place, size front < place → targets.lookup place = none := fun place hplace =>
    happart.lookup_eq_none h hc hfront hclosing (.inr hplace)
  -- the code of the fragment and that of what closes it
  obtain ⟨back, hback⟩ : ∃ back, back = c.code.drop (size front) := ⟨_, rfl⟩
  have hread := happart.read_eq
  rw [← take_append_drop (size front) c.code, operations_append_eq_ok_iff, ← hback,
    length_take, Nat.min_eq_left (by omega), Nat.zero_add] at hread
  obtain ⟨a, b, ha, hb, rfl⟩ := hread
  have hsize : (reals front).length = (reals a).length := by
    rw [length_reals, length_reals, size_operations ha, length_take]
    omega
  have hreals : reals b = closing := by
    have hdrop := forall₂_drop (reals front).length happart.readBack
    rw [reals_append, reals_append, drop_left, hsize, drop_left, hreal] at hdrop
    exact hclosing.eq_of_readBack hdrop
  cases back with
  | nil =>
    have := congrArg List.length hback
    rw [length_nil, length_drop] at this
    omega
  | cons i back =>
    obtain ⟨op, tail, hop, htail, rfl⟩ := operations_cons_eq_ok_iff.1 hb
    have htail' : reals tail = tail :=
      reals_operations_eq_self htail (fun place hplace => hnone place (by omega))
        fun place hplace => h.lineAt_eq_nil hclosing (by omega)
    have hmarkers : ∀ o ∈ markAt targets (size front) ++ lineAt c (size front),
        o.opcode = none := by
      intro o ho
      rcases mem_append.1 ho with ho | ho
      · exact opcode_of_mem_markAt ho
      · exact opcode_of_mem_lineAt ho
    rw [reals_append, reals_of_markers hmarkers, nil_append,
      reals_cons_of_isReal (isReal_of_operation hop), htail'] at hreals
    refine ⟨a ++ (markAt targets (size front) ++ lineAt c (size front)), ?_⟩
    have hend : markAt targets c.code.length = [] := by
      rw [markAt, hnone _ (by omega)]
      rfl
    have hne : c.code.isEmpty = false := by simpa using h.code_ne_nil
    rw [stream, hend, hne, hreals]
    simp only [Bool.false_eq_true, if_false, append_nil, append_assoc]

theorem TakenApart.exists_stream_cons :
    ∃ line rest, stream c targets read = .line line :: rest := by
  have hread := happart.read_eq
  have hmark : markAt targets 0 = [] := by
    rw [markAt, happart.lookup_eq_none h hc hfront hclosing (.inl rfl)]
    rfl
  have hline : lineAt c 0 = [.line (c.lineFor 0)] := by
    rcases lineAt_eq (h.ordered hc) 0 with hline | ⟨-, hpos, -⟩
    · exact hline
    · exact absurd rfl hpos
  cases hcode : c.code with
  | nil => exact absurd hcode h.code_ne_nil
  | cons i code =>
    rw [hcode] at hread
    obtain ⟨op, tail, -, -, rfl⟩ := operations_cons_eq_ok_iff.1 hread
    rw [stream, hmark, hline]
    exact ⟨_, _, rfl⟩

theorem TakenApart.exists_body :
    ∃ line body, stream c targets read = .line line :: (body ++ closing) := by
  obtain ⟨body, hbody⟩ := happart.exists_stream_eq h hc hfront hclosing
  obtain ⟨line, rest, hrest⟩ := happart.exists_stream_cons h hc hfront hclosing
  rcases cons_eq_append_iff.1 (hrest.symm.trans hbody) with ⟨-, hclosed⟩ | ⟨body', -, htail⟩
  · have := hclosing.isReal (.line line) (by rw [hclosed]; exact mem_cons_self)
    cases this
  · exact ⟨line, body', by rw [hrest, htail]⟩

end

theorem Op.Renamed.alike {rename : Label → Label} {op op' : Op} (h : op.Renamed rename op') :
    op.Alike rename op' := by
  cases op with
  | jump o l =>
    cases h
    exact ⟨fun o' l' heq => by cases heq; rfl, fun o' l' heq => ⟨l, by cases heq; rfl⟩,
      fun opcode' hop => ⟨opcode', hop, fun _ _ _ hstep => hstep⟩⟩
  | const k =>
    obtain ⟨k', rfl, -⟩ := h
    exact ⟨by simp, by simp, fun opcode' hop => ⟨opcode', hop, fun _ _ _ hstep => hstep⟩⟩
  | _ =>
    cases h
    exact ⟨by simp, by simp, fun opcode' hop => ⟨opcode', hop, fun _ _ _ hstep => hstep⟩⟩

/-- The streams differ in labels and in what takes no instruction. -/
def Relabelled (a b : Stream) : Prop :=
  ∃ rename : Label → Label, List.Forall₂ (Op.Renamed rename) (reals a) (reals b) ∧
    ∀ l ∈ references a, position? (rename l) 0 b = position? l 0 a

theorem Relabelled.size_eq {a b : Stream} (h : Relabelled a b) : size b = size a := by
  obtain ⟨rename, hreals, -⟩ := h
  rw [← length_reals, ← length_reals, hreals.length_eq]

variable (happart : TakenApart (front ++ closing) c ls ls' targets read)
  (hclosing : Closing closing) {line : UInt32} {body : Stream}
  (hstream : stream c targets read = .line line :: (body ++ closing))
include happart hclosing hstream

theorem TakenApart.relabelled : Relabelled front body := by
  have hreals : reals (stream c targets read) = reals body ++ reals closing := by
    rw [hstream]
    exact reals_append body closing
  have hrenamed := happart.renamed
  rw [hreals, reals_append] at hrenamed
  have hlength : (reals front).length = (reals body).length := by
    have := hrenamed.length_eq
    rw [length_append, length_append] at this
    omega
  refine ⟨labelOfPlace (front ++ closing) targets, ?_, fun l hl => ?_⟩
  · have htake := forall₂_take (reals front).length hrenamed
    rwa [take_left, hlength, take_left] at htake
  · have hplace := happart.position?_labelOfPlace (l := l)
      (by rw [references_append]; exact mem_append_left _ hl)
    rw [hstream, hclosing.position?_append] at hplace
    exact (hclosing.position?_append _).symm.trans hplace

theorem TakenApart.piece (hfront : Piece false first next ins outs front) :
    Piece false ls.allocated ls'.allocated ins outs body := by
  have hmarks : marks (stream c targets read) = marks body := by
    rw [hstream]
    show marks (body ++ closing) = marks body
    rw [marks_append, hclosing.marks_eq, append_nil]
  have hreferences : references (stream c targets read) = references body := by
    rw [hstream]
    show references (body ++ closing) = references body
    rw [references_append, hclosing.references_eq, append_nil]
  obtain ⟨hnodup, hmarked⟩ := checkLabels_eq_ok_iff.1
    (checkLabels_stream happart.labelling happart.leads_le happart.read_eq)
  rw [hmarks, hreferences] at hmarked
  rw [hmarks] at hnodup
  obtain ⟨rename, hrenamed, hplaces⟩ := happart.relabelled hclosing hstream
  refine hfront.alike (hrenamed.imp fun _ _ hop => hop.alike) hplaces happart.labelling.le
    (fun l hl => ?_) hnodup fun l hl => (hmarked l).1 hl
  rw [← hmarks, marks_stream happart.read_eq, mem_filterMap] at hl
  obtain ⟨place, -, hplace⟩ := hl
  exact happart.labelling.bounds place l hplace

end TakenApart

variable {text : String} {g : Generator} {suite : List Stmt}

/-! ### Splicing -/

theorem Assembled.exists_body {first next : Nat} {outs : List Kind}
    (h : Assembled fileName (front ++ closing) header c) (hc : c.Addressable)
    (hfront : Piece false first next [] outs front) (hclosing : Closing closing) (ls : Labels) :
    ∃ ls' line body, c.toStream ls = (.ok (.line line :: (body ++ closing)), ls') ∧
      Piece false ls.allocated ls'.allocated [] outs body ∧ Relabelled front body := by
  obtain ⟨ls', targets, read, happart, -⟩ := h.exists_takenApart hc ls
  obtain ⟨line, body, hstream⟩ := happart.exists_body h hc hfront hclosing
  exact ⟨ls', line, body, by rw [happart.toStream_eq, hstream],
    happart.piece hclosing hstream hfront, happart.relabelled hclosing hstream⟩

theorem Piece.exists_assembled {first next : Nat} (h : Piece false first next [] [.any] front)
    (hsize : size front + 1 < 4294967296) (fileName : String) (firstLine : UInt32) :
    ∃ c, finishFragment fileName (front ++ [.bare .returnValue]) firstLine = .ok c ∧
      Assembled fileName (front ++ [.bare .returnValue]) { name := "<module>", firstLine } c ∧
      c.Addressable := by
  have hsize' : size (front ++ [.bare .returnValue]) < 4294967296 := by
    rw [size_append]
    exact hsize
  obtain ⟨c, hc, -⟩ : ∃ c, assemble fileName _ { name := "<module>", firstLine } = .ok c ∧ _ :=
    h.finished.exists_assemble fileName (by omega) hsize' .nil rfl rfl rfl
  have hassembled := assemble_eq_ok_iff.1 hc
  exact ⟨c, by rw [finishFragment, hc], hassembled, hassembled.addressable rfl rfl hsize'⟩

theorem Expr.Callable.exists_assembled (he : e.Callable)
    (hsize : size (e.emit {}).1 + 1 < 4294967296) (fileName : String) :
    ∃ c, compileExpression e fileName = .ok c ∧
      Assembled fileName (.line 1 :: (e.emit {}).1 ++ [.bare .returnValue])
        { name := "<module>", firstLine := 1 } c ∧ c.Addressable :=
  ((Piece.line false _ [] 1).append (he.emits {} (by omega))).exists_assembled hsize fileName 1

theorem exists_assembled_suite (hsuite : ∀ s ∈ suite, s.Callable)
    (hsize : size (emitSuite suite {}).1 + 2 < 4294967296) (fileName : String) :
    ∃ c, compileStatements suite fileName = .ok c ∧
      Assembled fileName ((emitSuite suite {}).1 ++ [.const .none, .bare .returnValue])
        { name := "<module>", firstLine := suite.head?.elim 1 Stmt.line } c ∧ c.Addressable := by
  have hvalue : Piece false _ _ [] [.any] ((emitSuite suite {}).1 ++ [.const .none]) :=
    (piece_emitSuite hsuite {} (by omega)).append (.leaf _ rfl)
  have hone : size ((emitSuite suite {}).1 ++ [.const .none]) = size (emitSuite suite {}).1 + 1 :=
    size_append _ _
  have hunit := hvalue.exists_assembled (by omega) fileName (suite.head?.elim 1 Stmt.line)
  rw [append_assoc] at hunit
  exact hunit

theorem trimFrame_statements (line : UInt32) (body : Stream) :
    Generator.trimFrame .statements (.line line :: (body ++ [.const .none, .bare .returnValue])) =
      .ok body := by
  simp [Generator.trimFrame]

theorem trimFrame_expression (body : Stream) :
    Generator.trimFrame .expression (body ++ [.bare .returnValue]) = .ok body := by
  simp [Generator.trimFrame]

theorem insert_eq_ok {fragment : Fragment} {mode : Mode} {trim : Bool} {ls' : Labels}
    {body : Stream} (hcode : g.compiler fragment g.fileName mode = .ok c)
    (hops : c.toStream g.labels = (.ok ops, ls'))
    (htrim : (if trim then Generator.trimFrame mode ops else .ok ops) = .ok body) :
    Generator.insert fragment mode trim g =
      .ok () { g with labels := ls', ops := g.ops ++ body } := by
  simp only [Generator.insert, hcode, hops, htrim]

theorem exists_compileStatements (hsuite : ∀ s ∈ suite, s.Callable)
    (hsize : size (emitSuite suite {}).1 + 2 < 4294967296) (fileName : String) :
    ∃ c, compileStatements suite fileName = .ok c ∧ ∀ ls, ∃ ls' line body,
      c.toStream ls =
        (.ok (.line line :: (body ++ [.const .none, .bare .returnValue])), ls') ∧
      Piece false ls.allocated ls'.allocated [] [] body ∧
      Relabelled (emitSuite suite {}).1 body := by
  obtain ⟨c, hc, hassembled, haddress⟩ := exists_assembled_suite hsuite hsize fileName
  exact ⟨c, hc, hassembled.exists_body haddress (piece_emitSuite hsuite {} (by omega))
    (.inl rfl)⟩

theorem exists_compiled_suite (hparse : parseStatements text = .ok suite)
    (hsize : size (emitSuite suite {}).1 + 2 < 4294967296) (fileName : String) :
    ∃ c, sourceCompiler (.source text) fileName .statements = .ok c ∧ ∀ ls, ∃ ls' line body,
      c.toStream ls =
        (.ok (.line line :: (body ++ [.const .none, .bare .returnValue])), ls') ∧
      Piece false ls.allocated ls'.allocated [] [] body ∧
      size body = size (emitSuite suite {}).1 := by
  obtain ⟨c, hc, happart⟩ :=
    exists_compileStatements (callable_of_parseStatements hparse) hsize fileName
  refine ⟨c, by simp only [sourceCompiler, hparse, bind, Except.bind, hc], fun ls => ?_⟩
  obtain ⟨ls', line, body, hstream, hpiece, hbody⟩ := happart ls
  exact ⟨ls', line, body, hstream, hpiece, hbody.size_eq⟩

theorem exists_compiled_expression (hparse : parseExpression text = .ok e)
    (hsize : size (e.emit {}).1 + 1 < 4294967296) (fileName : String) :
    ∃ c, sourceCompiler (.source text) fileName .expression = .ok c ∧ ∀ ls, ∃ ls' line body,
      c.toStream ls = (.ok (.line line :: (body ++ [.bare .returnValue])), ls') ∧
      Piece false ls.allocated ls'.allocated [] [.any] body ∧ size body = size (e.emit {}).1 := by
  have he := callable_of_parseExpression hparse
  obtain ⟨c, hc, hassembled, haddress⟩ := he.exists_assembled hsize fileName
  refine ⟨c, ?_, fun ls => ?_⟩
  · simp only [sourceCompiler, hparse, bind, Except.bind]
    exact hc
  · obtain ⟨ls', line, body, hstream, hpiece, hbody⟩ := hassembled.exists_body haddress
      ((Piece.line false _ [] 1).append (he.emits {} (by omega))) (.inr rfl) ls
    exact ⟨ls', line, body, hstream, hpiece, hbody.size_eq⟩

theorem exists_insertBlock (hparse : parseStatements text = .ok suite)
    (hsize : size (emitSuite suite {}).1 + 2 < 4294967296) (hg : g.compiler = sourceCompiler) :
    ∃ ls' body, Generator.insertBlock (.source text) true g =
        .ok () { g with labels := ls', ops := g.ops ++ body } ∧
      Piece false g.labels.allocated ls'.allocated [] [] body ∧
      size body = size (emitSuite suite {}).1 := by
  obtain ⟨c, hc, happart⟩ := exists_compiled_suite hparse hsize g.fileName
  obtain ⟨ls', line, body, hstream, hpiece, hbody⟩ := happart g.labels
  refine ⟨ls', body, insert_eq_ok (c := c) ?_ hstream (trimFrame_statements line body), hpiece,
    hbody⟩
  rw [hg, hc]

theorem exists_insertExpr (hparse : parseExpression text = .ok e)
    (hsize : size (e.emit {}).1 + 1 < 4294967296) (hg : g.compiler = sourceCompiler) :
    ∃ ls' body, Generator.insertExpr (.source text) true g =
        .ok () { g with labels := ls', ops := g.ops ++ body } ∧
      Piece false g.labels.allocated ls'.allocated [] [.any] body ∧
      size body = size (e.emit {}).1 := by
  obtain ⟨c, hc, happart⟩ := exists_compiled_expression hparse hsize g.fileName
  obtain ⟨ls', line, body, hstream, hpiece, hbody⟩ := happart g.labels
  refine ⟨ls', .line line :: body, insert_eq_ok (c := c) ?_ hstream
    (trimFrame_expression (.line line :: body)), (Piece.line false _ [] line).append hpiece, hbody⟩
  rw [hg, hc]

end Bytewright
