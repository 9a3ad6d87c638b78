import Bytewright.CommandLine.Report
import Bytewright.Proofs.Generator.Program

/-!
# From a text to a unit

Only reading the text can fail.  The length of the text is bounded, since jumps name instructions in
four bytes.
-/

namespace Bytewright

open Assemble CommandLine List

def CommandLine.mode (o : Options) : Mode := if o.switches.expr then .expression else .statements

/-- The text cannot be read, for this fault. -/
def SyntaxError (text : String) (mode : Mode) (e : FragmentError) : Prop :=
  Lexer.clean text = .error e ∨ ∃ tokens, Lexer.clean text = .ok tokens ∧
    match mode with
    | .statements => (Parser.suite Parser.expression).run' ⟨tokens, .start⟩ = .error e
    | .expression => (Parser.loneExpression Parser.expression).run' ⟨tokens, .start⟩ = .error e

/-- Resolution, where names are given. -/
def Generator.rewritten : Option (List String) → Emit (List String)
  | none => pure []
  | some names => Generator.resolveNames names

section Compile

variable {text fileName : String} {e : FragmentError}

theorem clean_bind_eq_error {α : Type} {parse : List Located → Except FragmentError α}
    (h : Lexer.clean text >>= parse = .error e) :
    Lexer.clean text = .error e ∨ ∃ tokens, Lexer.clean text = .ok tokens ∧
      parse tokens = .error e := by
  cases hclean : Lexer.clean text with
  | error e' =>
    rw [hclean] at h
    cases h
    exact .inl rfl
  | ok tokens => exact .inr ⟨tokens, rfl, by rwa [hclean] at h⟩

theorem syntaxError_of_sourceCompiler (htext : text.length < 4294967293) {mode : Mode}
    (h : sourceCompiler (.source text) fileName mode = .error e) : SyntaxError text mode e := by
  cases mode with
  | statements =>
    cases hparse : parseStatements text with
    | error e' =>
      simp only [sourceCompiler, hparse, bind, Except.bind] at h
      cases h
      exact clean_bind_eq_error hparse
    | ok body =>
      have hsize := size_emitSuite_of_parseStatements hparse
      obtain ⟨c, hc, -⟩ := exists_compiled_suite hparse (by omega) fileName
      rw [hc] at h
      cases h
  | expression =>
    cases hparse : parseExpression text with
    | error e' =>
      simp only [sourceCompiler, hparse, bind, Except.bind] at h
      cases h
      exact clean_bind_eq_error hparse
    | ok body =>
      have hsize := size_emit_of_parseExpression hparse
      obtain ⟨c, hc, -⟩ := exists_compiled_expression hparse (by omega) fileName
      rw [hc] at h
      cases h

/-! ### Splicing -/

theorem exists_emitSuite {body : List Stmt} (hparse : parseStatements text = .ok body)
    (hsize : size (emitSuite body {}).1 + 2 < 4294967296) (trim : Bool) :
    ∃ ls' front, (do
        Generator.insertBlock (.source text) trim
        if trim then Generator.extend [.const .none, .bare .returnValue] : Emit Unit) { fileName } =
      .ok () { fileName, labels := ls', ops := front ++ [.bare .returnValue] } ∧
      Piece false 0 ls'.allocated [] [.any] front ∧
      size front = size (emitSuite body {}).1 + 1 := by
  obtain ⟨c, hc, happart⟩ := exists_compiled_suite hparse hsize fileName
  obtain ⟨ls', line, ops, hstream, hpiece, hlength⟩ := happart {}
  have hvalue : Piece false 0 ls'.allocated [] [.any] (ops ++ [.const .none]) :=
    hpiece.append (.leaf _ rfl)
  have hone : size (ops ++ [.const .none]) = size (emitSuite body {}).1 + 1 := by
    rw [size_append, hlength]
    rfl
  cases trim with
  | true =>
    have hinsert : Generator.insertBlock (.source text) true { fileName } = .ok () _ :=
      insert_eq_ok hc hstream (trimFrame_statements line ops)
    refine ⟨ls', ops ++ [.const .none], ?_, hvalue, hone⟩
    show EStateM.bind (Generator.insertBlock (.source text) true) _ _ = _
    rw [EStateM.bind, hinsert, append_assoc]
    rfl
  | false =>
    have hinsert : Generator.insertBlock (.source text) false { fileName } = .ok () _ :=
      insert_eq_ok hc hstream rfl
    have hline : Piece false 0 ls'.allocated [] [.any] ([.line line] ++ (ops ++ [.const .none])) :=
      (Piece.line false 0 [] line).append hvalue
    refine ⟨ls', [.line line] ++ (ops ++ [.const .none]), ?_, hline, hone⟩
    show EStateM.bind (Generator.insertBlock (.source text) false) _ _ = _
    rw [EStateM.bind, hinsert, append_assoc, append_assoc]
    rfl

theorem exists_emitExpression {e : Expr} (hparse : parseExpression text = .ok e)
    (hsize : size (e.emit {}).1 + 1 < 4294967296) (trim : Bool) :
    ∃ ls' front, (do
        Generator.insertExpr (.source text) trim
        if trim then Generator.push (.bare .returnValue) : Emit Unit) { fileName } =
      .ok () { fileName, labels := ls', ops := front ++ [.bare .returnValue] } ∧
      Piece false 0 ls'.allocated [] [.any] front ∧ size front = size (e.emit {}).1 := by
  obtain ⟨c, hc, happart⟩ := exists_compiled_expression hparse hsize fileName
  obtain ⟨ls', line, ops, hstream, hpiece, hlength⟩ := happart {}
  refine ⟨ls', .line line :: ops, ?_, (Piece.line false 0 [] line).append hpiece, hlength⟩
  cases trim with
  | true =>
    have hinsert : Generator.insertExpr (.source text) true { fileName } = .ok () _ :=
      insert_eq_ok hc hstream (trimFrame_expression (.line line :: ops))
    show EStateM.bind (Generator.insertExpr (.source text) true) _ _ = _
    rw [EStateM.bind, hinsert]
    rfl
  | false =>
    have hinsert : Generator.insertExpr (.source text) false { fileName } = .ok () _ :=
      insert_eq_ok hc hstream rfl
    show EStateM.bind (Generator.insertExpr (.source text) false) _ _ = _
    rw [EStateM.bind, hinsert]
    rfl

theorem exists_emitFragment (htext : text.length < 4294967293) (o : Options) {c : Code}
    (hc : sourceCompiler (.source text) fileName (mode o) = .ok c) :
    ∃ ls' front, emitFragment o text { fileName } =
        .ok () { fileName, labels := ls', ops := front ++ [.bare .returnValue] } ∧
      Piece false 0 ls'.allocated [] [.any] front ∧ size front + 1 < 4294967296 := by
  unfold emitFragment
  unfold mode at hc
  cases hexpr : o.switches.expr with
  | true =>
    rw [hexpr, if_pos rfl] at hc
    rw [if_pos rfl]
    cases hparse : parseExpression text with
    | error e =>
      simp only [sourceCompiler, hparse, bind, Except.bind] at hc
      cases hc
    | ok e =>
      have hsize := size_emit_of_parseExpression hparse
      obtain ⟨ls', front, hemit, hpiece, hlength⟩ :=
        exists_emitExpression hparse (by omega) (!o.switches.noTrim)
      exact ⟨ls', front, hemit, hpiece, by omega⟩
  | false =>
    rw [hexpr, if_neg Bool.false_ne_true] at hc
    rw [if_neg Bool.false_ne_true]
    cases hparse : parseStatements text with
    | error e =>
      simp only [sourceCompiler, hparse, bind, Except.bind] at hc
      cases hc
    | ok body =>
      have hsize := size_emitSuite_of_parseStatements hparse
      obtain ⟨ls', front, hemit, hpiece, hlength⟩ :=
        exists_emitSuite hparse (by omega) (!o.switches.noTrim)
      exact ⟨ls', front, hemit, hpiece, by omega⟩

end Compile

/-! ### Assembling -/

theorem Piece.exists_toCode {first next : Nat} {front : Stream}
    (h : Piece false first next [] [.any] front) (hsize : size front + 1 < 4294967296)
    (available : Option (List String)) (fileName : String) (labels : Labels) (header : Header)
    (hvarArgs : header.varArgs = false) (hvarKeywords : header.varKeywords = false)
    (hmax : header.maxStackSize = none) :
    ∃ required g c, Generator.rewritten available
        { fileName, labels, ops := front ++ [.bare .returnValue] } = .ok required g ∧
      g.toCode { header with args := required } = .ok c ∧
      c.argCount.toNat = required.length := by
  have hunit {a : Stream} (ha : Piece false first next [] [.any] a) (hsame : size a = size front)
      {args : List String} (hargs : args.Nodup) (hcount : args.length < 4294967296) :
      ∃ c, assemble fileName (a ++ [.bare .returnValue]) { header with args } = .ok c ∧
        c.argCount.toNat = args.length := by
    obtain ⟨c, hc, -⟩ : ∃ c, assemble fileName _ { header with args } = .ok c ∧ _ :=
      ha.finished.exists_assemble fileName (by omega)
        (by rw [size_append, hsame]; exact hsize) hargs hvarArgs hvarKeywords hmax
    refine ⟨c, hc, ?_⟩
    have hcount' : argCount { header with args } = args.length := by
      rw [argCount, hvarArgs, hvarKeywords]
      rfl
    rw [(assemble_eq_ok_iff.1 hc).argCount_eq, hcount', UInt32.toNat_ofNat_of_lt' hcount]
  cases available with
  | none =>
    obtain ⟨c, hc, hcount⟩ := hunit h rfl .nil (by simp)
    exact ⟨[], _, c, rfl, hc, hcount⟩
  | some names =>
    let ops := front ++ [.bare .returnValue]
    have hrequired := Scope.length_required_add_stored_le names [] ops
    have hops : size ops = size front + 1 := size_append _ _
    obtain ⟨c, hc, hcount⟩ := hunit (h.resolve names (Scope.stored ops)) (by
        rw [← length_reals, ← length_reals, reals_map_resolve, length_map])
      (Scope.nodup_required names [] ops).1 (by omega)
    refine ⟨Scope.required names [] ops, _, c, rfl, ?_, hcount⟩
    rw [Generator.toCode, ← hc]
    show assemble fileName (map _ (front ++ _)) _ = _
    rw [map_append]
    rfl

/-- Only syntax errors stop a text on its way to a unit.  What is compiled is spliced into a fresh
generator, trimmed or not, closed, rewritten for any names or not, and assembled with the parameters
that rewriting requires, and the unit takes as many arguments. -/
theorem only_syntax_errors_stop (text fileName : String) (htext : text.length < 4294967293) :
    (∀ mode e, sourceCompiler (.source text) fileName mode = .error e → SyntaxError text mode e) ∧
    ∀ (o : Options) (c : Code), sourceCompiler (.source text) fileName (mode o) = .ok c →
      ∀ (available : Option (List String)) (header : Header), header.varArgs = false →
        header.varKeywords = false → header.maxStackSize = none →
        ∃ required g unit,
          (do emitFragment o text; Generator.rewritten available : Emit (List String))
            { fileName } = .ok required g ∧
          g.toCode { header with args := required } = .ok unit ∧
          unit.argCount.toNat = required.length := by
  refine ⟨fun mode e => syntaxError_of_sourceCompiler htext, ?_⟩
  intro o c hc available header hvarArgs hvarKeywords hmax
  obtain ⟨ls', front, hemit, hpiece, hsize⟩ := exists_emitFragment htext o hc
  obtain ⟨required, g, unit, hrewritten, hunit⟩ :=
    hpiece.exists_toCode hsize available fileName ls' header hvarArgs hvarKeywords hmax
  refine ⟨required, g, unit, ?_, hunit⟩
  show EStateM.bind (emitFragment o text) _ _ = _
  rw [EStateM.bind, hemit]
  exact hrewritten

def raisingText : String := "raise x\ny = f(x, k=y) if z else -1\n"

def raisingOptions : Options where
  file := "raising"
  switches := { noTrim := true }
  params := []
  emit := none
  maxSteps := none

/-- The suite gets through, with two names available. -/
theorem raisingText_gets_through :
    raisingText.length < 4294967293 ∧ ∃ required g unit,
      (do emitFragment raisingOptions raisingText; Generator.rewritten (some ["y", "x"]) :
        Emit (List String)) { fileName := "raising" } = .ok required g ∧
      g.toCode { name := "raising", args := required } = .ok unit ∧
      unit.argCount.toNat = required.length := by
  have htext : raisingText.length < 4294967293 := by decide
  have hok : (parseStatements raisingText).isOk = true := by decide +kernel
  refine ⟨htext, ?_⟩
  cases hparse : parseStatements raisingText with
  | error e =>
    rw [hparse] at hok
    cases hok
  | ok body =>
    have hsize := size_emitSuite_of_parseStatements hparse
    obtain ⟨c, hc, -⟩ := exists_compiled_suite hparse (by omega) "raising"
    exact (only_syntax_errors_stop raisingText "raising" htext).2 raisingOptions c hc
      (some ["y", "x"]) { name := "raising" } rfl rfl rfl

end Bytewright
