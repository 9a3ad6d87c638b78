import Bytewright.Proofs.Generator.Splice
import Bytewright.Proofs.Source.Relocate

/-!
# Splicing composes

Each suite is compiled to a unit of its own, taken apart with labels of the generator and trimmed;
the other way there is one stream.  The two streams are congruent, and differ in line markers.
-/

namespace Bytewright

open Assemble List

/-- The fragment is a text, or the tree of a text, that parses as this suite. -/
inductive Fragment.IsParsed : Fragment → List Stmt → Prop
  | text {text : String} {suite : List Stmt} (h : parseStatements text = .ok suite) :
    IsParsed (.source text) suite
  | tree {text : String} {suite : List Stmt} (h : parseStatements text = .ok suite) :
    IsParsed (.statements suite) suite

def Generator.insertBlocks (fragments : List Fragment) : Emit Unit :=
  fragments.forM fun fragment => insertBlock fragment true

variable {suite : List Stmt} {fragment : Fragment} {g : Generator} {fragments : List Fragment}
  {suites : List (List Stmt)}

/-! ### One suite -/

theorem Fragment.IsParsed.exists_parseStatements (h : fragment.IsParsed suite) :
    ∃ text, parseStatements text = .ok suite := by
  rcases h with h | h
  · exact ⟨_, h⟩
  · exact ⟨_, h⟩

theorem Fragment.IsParsed.sourceCompiler_eq (h : fragment.IsParsed suite) (fileName : String) :
    sourceCompiler fragment fileName .statements = compileStatements suite fileName := by
  rcases h with h | h
  · simp only [sourceCompiler, h, bind, Except.bind]
  · rfl

theorem Relabelled.congruent {a b : Stream} (h : Relabelled a b) (hdata : HasData a)
    (hmarked : ∀ l ∈ references a, l ∈ marks a) : Congruent a b := by
  obtain ⟨rename, hreals, hplaces⟩ := h
  rw [forall₂_iff_get] at hreals
  refine forall₂_iff_get.2 ⟨hreals.1, fun i ha hb => ?_⟩
  have hmem : (reals a).get ⟨i, ha⟩ ∈ a := mem_of_mem_filter (get_mem _ _)
  have hop := hreals.2 i ha hb
  generalize (reals a).get ⟨i, ha⟩ = op, (reals b).get ⟨i, hb⟩ = op' at hmem hop
  cases op with
  | jump o l =>
    cases hop
    have hl : l ∈ references a := mem_references_iff.2 ⟨o, hmem⟩
    obtain ⟨place, hplace⟩ := Option.isSome_iff_exists.1 (isSome_position?_iff.2 (hmarked l hl))
    exact ⟨place, rename l, rfl, hplace, (hplaces l hl).trans hplace⟩
  | const k =>
    obtain ⟨k', rfl, rfl | hsame⟩ := hop
    · rfl
    · have hk := (Const.isData_eq_of_sameAs hsame).trans (hdata k hmem)
      rw [Const.eq_of_sameAs hk hsame]
      rfl
  | _ => exact hop

theorem Fragment.IsParsed.exists_insertBlock (h : fragment.IsParsed suite)
    (hsize : size (emitSuite suite {}).1 + 2 < 4294967296) (hg : g.compiler = sourceCompiler)
    (ls : Labels) :
    ∃ ls' body, Generator.insertBlock fragment true g =
        .ok () { g with labels := ls', ops := g.ops ++ body } ∧
      Piece false g.labels.allocated ls'.allocated [] [] body ∧
      Congruent (emitSuite suite ls).1 body := by
  obtain ⟨text, hparse⟩ := h.exists_parseStatements
  have hcallable := callable_of_parseStatements hparse
  obtain ⟨c, hc, happart⟩ := exists_compileStatements hcallable hsize g.fileName
  obtain ⟨ls', line, body, hstream, hpiece, hbody⟩ := happart g.labels
  have hfresh := piece_emitSuite hcallable {} (by omega)
  refine ⟨ls', body, insert_eq_ok (c := c) ?_ hstream (trimFrame_statements line body), hpiece, ?_⟩
  · rw [hg, h.sourceCompiler_eq, hc]
  · exact (congruent_emitSuite hcallable ls (by omega)).symm.trans
      (hbody.congruent (hasData_of_parseStatements hparse {}) fun l => (hfresh.marked l).2)

/-! ### Several suites -/

theorem callable_of_isParsed (h : List.Forall₂ Fragment.IsParsed fragments suites) :
    ∀ s ∈ suites.flatten, s.Callable := by
  induction h with
  | nil => simp
  | cons hfirst _ ih =>
    obtain ⟨text, hparse⟩ := hfirst.exists_parseStatements
    rw [flatten_cons]
    exact forall_mem_append.2 ⟨callable_of_parseStatements hparse, ih⟩

theorem exists_insertBlocks (h : List.Forall₂ Fragment.IsParsed fragments suites) (ls : Labels)
    (hsize : size (emitSuite suites.flatten ls).1 + 2 < 4294967296)
    (hg : g.compiler = sourceCompiler) :
    ∃ ls' ops, Generator.insertBlocks fragments g =
        .ok () { g with labels := ls', ops := g.ops ++ ops } ∧
      Piece false g.labels.allocated ls'.allocated [] [] ops ∧
      Congruent (emitSuite suites.flatten ls).1 ops := by
  induction h generalizing g ls with
  | nil => exact ⟨g.labels, [], by rw [append_nil]; rfl, .nil _ _ _, .nil⟩
  | @cons fragment suite fragments suites hfirst hrest ih =>
    rw [flatten_cons, emitSuite_append] at hsize ⊢
    rw [size_append] at hsize
    obtain ⟨text, hparse⟩ := hfirst.exists_parseStatements
    have hcallable := callable_of_parseStatements hparse
    have hlength := size_emitSuite_eq suite ls
    obtain ⟨ls₁, body, hbody, hpiece, hcongruent⟩ := hfirst.exists_insertBlock (by omega) hg ls
    obtain ⟨ls₂, ops, hops, hpieces, hcongruents⟩ :=
      ih (emitSuite suite ls).2 (by omega) (g := { g with labels := ls₁, ops := g.ops ++ body }) hg
    have hemitted := piece_emitSuite hcallable ls (by omega)
    have hemitteds := piece_emitSuite (callable_of_isParsed hrest) (emitSuite suite ls).2 (by omega)
    refine ⟨ls₂, body ++ ops, ?_, hpiece.append hpieces, hcongruent.append hcongruents
      (hemitted.notMem_marks hemitteds) (hpiece.notMem_marks hpieces)⟩
    show EStateM.bind (Generator.insertBlock fragment true) _ _ = _
    rw [EStateM.bind, hbody, ← append_assoc]
    exact hops

/-- Splicing composes: suites that are spliced one after the other, with a return of `None` behind
them, are assembled to the unit of all their statements, except for its line table. -/
theorem splicing_composes (fragments : List Fragment) (suites : List (List Stmt))
    (fileName : String) (hfragments : List.Forall₂ Fragment.IsParsed fragments suites)
    (hsize : size (emitSuite suites.flatten {}).1 + 2 < 4294967296) :
    ∃ g code unit,
      (do Generator.insertBlocks fragments
          Generator.push (.const .none)
          Generator.push (.bare .returnValue) : Emit Unit) { fileName } = .ok () g ∧
      g.toCode { name := "<module>", firstLine := suites.flatten.head?.elim 1 Stmt.line } =
        .ok code ∧
      compileStatements suites.flatten fileName = .ok unit ∧
      code = { unit with lines := code.lines } := by
  obtain ⟨ls', ops, hops, hpiece, hcongruent⟩ :=
    exists_insertBlocks hfragments {} hsize (g := { fileName }) rfl
  obtain ⟨unit, hunit, hassembled, -⟩ :=
    exists_assembled_suite (callable_of_isParsed hfragments) hsize fileName
  have hclosing : Closing [.const .none, .bare .returnValue] := .inl rfl
  have hlabels : checkLabels (ops ++ [.const .none, .bare .returnValue]) = .ok () := by
    rw [checkLabels_eq_ok_iff, marks_append, references_append, hclosing.marks_eq,
      hclosing.references_eq, append_nil, append_nil]
    exact ⟨hpiece.nodup, hpiece.marked⟩
  have hsame : Congruent ((emitSuite suites.flatten {}).1 ++ [.const .none, .bare .returnValue])
      (ops ++ [.const .none, .bare .returnValue]) :=
    hcongruent.append (congruent_self (by simp)) (by simp [hclosing.references_eq])
      (by simp [hclosing.references_eq])
  refine ⟨{ fileName, labels := ls', ops := ops ++ [.const .none, .bare .returnValue] }, _, unit,
    ?_, assemble_eq_ok_iff.2 (hassembled.congr hsame hlabels), hunit, rfl⟩
  show EStateM.bind (Generator.insertBlocks fragments) _ _ = _
  rw [EStateM.bind, hops]
  show EStateM.Result.ok () ({ fileName, labels := ls', ops := ops ++ [.const .none] ++
    [.bare .returnValue] } : Generator) = _
  rw [append_assoc]
  rfl

def choosingText : String := "x = 1 if y else 2\n"

def choosingAgainText : String := "f(x, k=2); z = (1, 2) if (x if y else 1) else -1\n"

/-- The two suites compose, one spliced as a text and the other as a tree. -/
theorem choosing_composes : ∃ suite suite',
    List.Forall₂ Fragment.IsParsed [.source choosingText, .statements suite'] [suite, suite'] ∧
      size (emitSuite [suite, suite'].flatten {}).1 + 2 < 4294967296 ∧ ∃ g code unit,
      (do Generator.insertBlocks [.source choosingText, .statements suite']
          Generator.push (.const .none)
          Generator.push (.bare .returnValue) : Emit Unit) { fileName := "choosing" } = .ok () g ∧
      g.toCode { name := "<module>", firstLine := [suite, suite'].flatten.head?.elim 1 Stmt.line } =
        .ok code ∧
      compileStatements [suite, suite'].flatten "choosing" = .ok unit ∧
      code = { unit with lines := code.lines } := by
  have hok : ∀ text ∈ [choosingText, choosingAgainText], (parseStatements text).isOk = true := by
    decide +kernel
  have hparsed (text : String) (htext : text ∈ [choosingText, choosingAgainText]) :
      ∃ suite, parseStatements text = .ok suite := by
    cases hparse : parseStatements text with
    | error e =>
      have := hok text htext
      rw [hparse] at this
      cases this
    | ok suite => exact ⟨suite, rfl⟩
  obtain ⟨suite, hsuite⟩ := hparsed choosingText (by simp)
  obtain ⟨suite', hsuite'⟩ := hparsed choosingAgainText (by simp)
  have hfragments : List.Forall₂ Fragment.IsParsed [.source choosingText, .statements suite']
      [suite, suite'] := .cons (.text hsuite) (.cons (.tree hsuite') .nil)
  have hsize : size (emitSuite [suite, suite'].flatten {}).1 + 2 < 4294967296 := by
    have hfirst := size_emitSuite_of_parseStatements hsuite
    have hsecond := size_emitSuite_of_parseStatements hsuite'
    have hlengths : choosingText.length = 18 ∧ choosingAgainText.length = 49 := by decide +kernel
    simp only [flatten_cons, flatten_nil, append_nil]
    rw [emitSuite_append, size_append, size_emitSuite_eq suite']
    omega
  exact ⟨suite, suite', hfragments, hsize,
    splicing_composes [.source choosingText, .statements suite'] [suite, suite'] "choosing"
      hfragments hsize⟩

end Bytewright
