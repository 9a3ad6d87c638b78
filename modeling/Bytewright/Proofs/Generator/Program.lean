import Bytewright.Proofs.Generator.Region
import Bytewright.Proofs.Generator.Splice
import Bytewright.Proofs.Scope.Resolve

/-!
# Structured programs

What a structured program emits is a piece, so with a return behind it the assembler makes a sound
unit of it.
-/

namespace Bytewright

open Assemble Generator List OfCode

/-- Suites and expressions, one after another, in regions that squash exceptions and in loops. -/
inductive Program where
  | skip
  | seq (p q : Program)
  | block (text : String) (suite : List Stmt) (parsed : parseStatements text = .ok suite)
  | expr (text : String) (e : Expr) (parsed : parseExpression text = .ok e)
  | squash (p : Program)
  | loop (variableName : String) (fast : Bool) (store : NameOp) (item : String)
      (stores : store = .storeName ∨ store = .storeFast ∨ store = .storeGlobal) (p : Program)

namespace Program

def emit : Program → Emit Unit
  | skip => pure ()
  | seq p q => do
    p.emit
    q.emit
  | block text _ _ => insertBlock (.source text) true
  | expr text _ _ => do
    insertExpr (.source text) true
    push (.bare .popTop)
  | squash p => trySquashRaise p.emit
  | loop variableName fast store item _ p => forLoop variableName fast do
    push (.name store item)
    p.emit

/-- The number of instructions emitted. -/
def size : Program → Nat
  | skip => 0
  | seq p q => p.size + q.size
  | block _ suite _ => Assemble.size (emitSuite suite {}).1
  | expr _ e _ => Assemble.size (e.emit {}).1 + 1
  | squash p => p.size + 9
  | loop _ _ _ _ _ p => p.size + 7

/-- The program, its return and, where names are given, their resolution. -/
def emitUnit (p : Program) (available : Option (List String)) : Emit Unit := do
  p.emit
  push (.const .none)
  push (.bare .returnValue)
  match available with
  | none => pure ()
  | some names => discard (Generator.resolveNames names)

/-! ### What is emitted -/

/-- The action emits a piece of the given size. -/
def Appends (ins outs : List Kind) (size : Nat) (action : Emit Unit) (g : Generator) : Prop :=
  ∃ ls' ops, action g = .ok () { g with labels := ls', ops := g.ops ++ ops } ∧
    Piece true g.labels.allocated ls'.allocated ins outs ops ∧ Assemble.size ops = size

variable {ins mid outs : List Kind} {m n : Nat} {action next : Emit Unit} {g : Generator}

theorem Appends.bind (hfirst : Appends ins mid m action g)
    (hnext : ∀ g', g'.compiler = g.compiler → Appends mid outs n next g') :
    Appends ins outs (m + n) (do action; next) g := by
  obtain ⟨ls', ops, hops, hpiece, hsize⟩ := hfirst
  obtain ⟨ls'', ops', hops', hpiece', hsize'⟩ :=
    hnext { g with labels := ls', ops := g.ops ++ ops } rfl
  refine ⟨ls'', ops ++ ops', ?_, hpiece.append hpiece', by rw [size_append, hsize, hsize']⟩
  show EStateM.bind action (fun _ => next) g = _
  rw [EStateM.bind, hops]
  show next { g with labels := ls', ops := g.ops ++ ops } = _
  rw [hops', append_assoc]

theorem Appends.push {op : Op} (hop : ∀ first, Piece true first first ins outs [op]) :
    Appends ins outs (Assemble.size [op]) (Generator.push op) g :=
  ⟨g.labels, [op], rfl, hop _, rfl⟩

theorem bracket_eq_ok {opening closing ops : Stream} {ls' : Labels}
    (haction : action (g.append opening) =
      .ok () { g with labels := ls', ops := g.ops ++ opening ++ ops }) :
    bracket opening closing action g =
      .ok () { g with labels := ls', ops := g.ops ++ (opening ++ (ops ++ closing)) } := by
  rw [bracket, haction]
  simp only [Generator.append, append_assoc]

theorem Appends.squash
    (hbody : ∀ g', g'.compiler = g.compiler → Appends [] [] n action g') :
    Appends [] [] (n + 9) (trySquashRaise action) g := by
  let first := g.labels.allocated
  let opened : Generator := { g with labels := ⟨first + 2⟩ }
  obtain ⟨ls', ops, hops, hpiece, hsize⟩ :=
    hbody (opened.append [.jump .setupExcept ⟨first⟩]) rfl
  refine ⟨ls', Piece.squashed first ops, ?_, Piece.squash hpiece, ?_⟩
  · exact bracket_eq_ok (g := opened) hops
  · rw [Piece.size_squashed, hsize]

theorem Appends.loop (x : String) (fast : Bool)
    (hbody : ∀ g', g'.compiler = g.compiler → Appends [.any] [] n action g') :
    Appends [] [] (n + 6) (forLoop x fast action) g := by
  let first := g.labels.allocated
  let opened : Generator := { g with labels := ⟨first + 3⟩ }
  let load : NameOp := if fast then .loadFast else .loadGlobal
  have hload : load = .loadFast ∨ load = .loadGlobal := by cases fast <;> simp [load]
  obtain ⟨ls', ops, hops, hpiece, hsize⟩ := hbody (opened.append
    [.jump .setupLoop ⟨first + 2⟩, .name load x, .bare .getIter, .mark ⟨first⟩,
      .jump .forIter ⟨first + 1⟩]) rfl
  refine ⟨ls', Piece.looped first (.name load x) ops, ?_, Piece.loop x hload hpiece, ?_⟩
  · exact bracket_eq_ok (g := opened) hops
  · rw [Piece.size_looped, hsize]

theorem exists_emit (p : Program) (hsize : p.size + 2 < 4294967296)
    (hg : g.compiler = sourceCompiler) : Appends [] [] p.size p.emit g := by
  induction p generalizing g with
  | skip => exact ⟨g.labels, [], by rw [append_nil]; rfl, .nil _ _ _, rfl⟩
  | seq p q hp hq =>
    rw [size] at hsize
    exact (hp (by omega) hg).bind fun g' hg' => hq (by omega) (hg'.trans hg)
  | block text suite parsed =>
    obtain ⟨ls', body, hbody, hpiece, hlength⟩ := exists_insertBlock parsed hsize hg
    exact ⟨ls', body, hbody, hpiece.of_all, hlength⟩
  | expr text e parsed =>
    rw [size] at hsize
    obtain ⟨ls', body, hbody, hpiece, hlength⟩ := exists_insertExpr parsed (by omega) hg
    have hvalue : Appends [] [.any] (Assemble.size (e.emit {}).1) (insertExpr (.source text) true)
        g := ⟨ls', body, hbody, hpiece.of_all, hlength⟩
    have hpop (first : Nat) : Piece false first first [.any] [] [.bare .popTop] :=
      .leaf first rfl
    exact hvalue.bind fun g' _ => .push fun first => (hpop first).of_all
  | squash p hp =>
    rw [size] at hsize
    exact .squash fun g' hg' => hp (by omega) (hg'.trans hg)
  | loop x fast store item stores p hp =>
    rw [size] at hsize
    have hstore (first : Nat) : Piece false first first [.any] [] [.name store item] := by
      rcases stores with rfl | rfl | rfl <;> exact .leaf first rfl
    have hbody (g' : Generator) (hg' : g'.compiler = g.compiler) :
        Appends [.any] [] (1 + p.size) (do Generator.push (.name store item); p.emit) g' :=
      (Appends.push fun first => (hstore first).of_all).bind fun g'' hg'' =>
        hp (by omega) ((hg''.trans hg').trans hg)
    have hloop := Appends.loop x fast hbody
    rwa [show 1 + p.size + 6 = p.size + 7 by omega] at hloop

end Program

/-! ### Resolved names -/

section Resolve

variable (available stored : List String)

theorem alike_resolve (op : Op) : op.Alike id (Scope.resolve available stored op) := by
  rcases resolve_cases available stored op with heq | ⟨o, o', x, rfl, heq, heffect, hleaves, hfinds⟩
  · rw [heq]
    exact ⟨fun _ _ hop => hop, fun o l hop => ⟨l, hop⟩,
      fun opcode hop => ⟨opcode, hop, fun _ _ _ hstep => hstep⟩⟩
  · rw [heq]
    refine ⟨by simp, by simp, fun opcode' hop => ⟨_, rfl, fun s j t hstep => ?_⟩⟩
    cases hop
    exact hstep.congr (.inr ⟨rfl, rfl, rfl, rfl⟩) heffect hleaves fun taken _ => hfinds taken

theorem Piece.resolve {loops : Bool} {first next : Nat} {ins outs : List Kind} {a : Stream}
    (h : Piece loops first next ins outs a) :
    Piece loops first next ins outs (a.map (Scope.resolve available stored)) := by
  have halike : List.Forall₂ (Op.Alike id) (reals a)
      (reals (a.map (Scope.resolve available stored))) := by
    rw [reals_map_resolve, forall₂_map_right_iff, forall₂_same]
    exact fun op _ => alike_resolve available stored op
  refine h.alike halike (fun l _ => position?_map_resolve available stored a l 0) h.le ?_ ?_ ?_
  · rw [marks_map_resolve]
    exact h.range
  · rw [marks_map_resolve]
    exact h.nodup
  · rw [marks_map_resolve, references_map_resolve]
    exact fun l => (h.marked l).1

end Resolve

/-! ### Units -/

theorem Program.exists_toCode (p : Program) (available : Option (List String)) {header : Header}
    (fileName : String) (labels : Labels) (hsize : p.size + 2 < 4294967296)
    (hargs : header.args.Nodup) (hvarArgs : header.varArgs = false)
    (hvarKeywords : header.varKeywords = false) (hmax : header.maxStackSize = none) :
    ∃ g code, p.emitUnit available { fileName, labels } = .ok () g ∧
      g.toCode header = .ok code ∧ ∃ place, code.Sound place := by
  obtain ⟨ls', ops, hops, hpiece, hlength⟩ :=
    p.exists_emit (g := { fileName, labels }) hsize rfl
  have hnone : Piece false ls'.allocated ls'.allocated [] [.any] [.const .none] :=
    .leaf _ rfl
  have hvalue := hpiece.append hnone.of_all
  have hone : Assemble.size (ops ++ [.const .none]) = p.size + 1 := by
    rw [size_append, hlength]
    rfl
  have hunit {a : Stream} (ha : Piece true labels.allocated ls'.allocated [] [.any] a)
      (hsame : Assemble.size a = Assemble.size (ops ++ [.const .none])) :
      ∃ code, assemble fileName (a ++ [.bare .returnValue]) header = .ok code ∧
        ∃ place, code.Sound place :=
    ha.finished.exists_assemble fileName (by omega)
      (by rw [size_append, hsame, hone]; exact hsize) hargs hvarArgs hvarKeywords hmax
  let emitted : Generator :=
    { fileName, labels := ls', ops := ops ++ [.const .none] ++ [.bare .returnValue] }
  cases available with
  | none =>
    obtain ⟨code, hcode, hsound⟩ := hunit hvalue rfl
    refine ⟨emitted, code, ?_, hcode, hsound⟩
    show EStateM.bind p.emit _ _ = _
    rw [EStateM.bind, hops]
    rfl
  | some names =>
    let resolve := Scope.resolve names (Scope.stored emitted.ops)
    obtain ⟨code, hcode, hsound⟩ := hunit (hvalue.resolve names (Scope.stored emitted.ops)) (by
      rw [← length_reals, ← length_reals, reals_map_resolve, length_map])
    refine ⟨{ emitted with ops := emitted.ops.map resolve }, code, ?_, ?_, hsound⟩
    · show EStateM.bind p.emit _ _ = _
      rw [EStateM.bind, hops]
      rfl
    · rw [Generator.toCode, ← hcode]
      show assemble fileName (map resolve (_ ++ _)) header = _
      rw [map_append]
      rfl

end Bytewright
