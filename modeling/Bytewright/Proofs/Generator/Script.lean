import Bytewright.Proofs.Generator.Region
import Bytewright.Proofs.Shape.Finish

/-!
# Regions around bodies that fail

A script may fail anywhere.  Whatever it does, each of its regions is closed before it goes on:
labels are marked and jumped to, forward jumps lead forward, and blocks are opened and closed in
pairs.
-/

namespace Bytewright

open Assemble Generator List

/-! ### Blocks in pairs -/

def Op.opensBlock : Op → Bool
  | .jump .setupExcept _ | .jump .setupLoop _ => true
  | _ => false

/-- The operation neither opens nor closes a block. -/
def Op.inBlock : Op → Bool
  | .jump .setupExcept _ | .jump .setupLoop _ | .bare .popBlock => false
  | _ => true

/-- The streams in which each operation that opens a block has one of its own that closes it. -/
inductive Nested : Stream → Prop
  | nil : Nested []
  | cons {op : Op} {ops : Stream} (hop : op.inBlock = true) (hops : Nested ops) : Nested (op :: ops)
  | block {op : Op} {inner rest : Stream} (hop : op.opensBlock = true) (hinner : Nested inner)
      (hrest : Nested rest) : Nested (op :: (inner ++ .bare .popBlock :: rest))

theorem Nested.append {a b : Stream} (ha : Nested a) (hb : Nested b) : Nested (a ++ b) := by
  induction ha with
  | nil => exact hb
  | cons hop _ ih => exact .cons hop ih
  | block hop hinner _ _ ih =>
    rw [cons_append, append_assoc, cons_append]
    exact .block hop hinner ih

theorem Nested.of_all {a : Stream} (h : a.all Op.inBlock = true) : Nested a := by
  induction a with
  | nil => exact .nil
  | cons op a ih =>
    rw [all_cons, Bool.and_eq_true] at h
    exact .cons h.1 (ih h.2)

/-! ### Regions -/

inductive Region where
  | squash
  | loop (variableName : String) (fast : Bool)

namespace Region

def around : Region → Emit Unit → Emit Unit
  | squash => trySquashRaise
  | loop x fast => forLoop x fast

/-- The number of labels that the region takes for itself. -/
def labels : Region → Nat
  | squash => 2
  | loop _ _ => 3

def opening (first : Nat) : Region → Stream
  | squash => [.jump .setupExcept ⟨first⟩]
  | loop x fast =>
    [.jump .setupLoop ⟨first + 2⟩, .name (if fast then .loadFast else .loadGlobal) x,
      .bare .getIter, .mark ⟨first⟩, .jump .forIter ⟨first + 1⟩]

def closing (first : Nat) : Region → Stream
  | squash => squashClosing ⟨first⟩ ⟨first + 1⟩
  | loop _ _ =>
    [.jump .jumpAbsolute ⟨first⟩, .mark ⟨first + 1⟩, .bare .popBlock, .mark ⟨first + 2⟩]

def opened (r : Region) (g : Generator) : Generator :=
  { g with labels := ⟨g.labels.allocated + r.labels⟩ }.append (r.opening g.labels.allocated)

variable {first next : Nat} {body : Stream}

theorem labelled (r : Region) (hbody : Labelled true (first + r.labels) next body) :
    Labelled true first next (r.opening first ++ (body ++ r.closing first)) := by
  cases r with
  | squash => exact Piece.labelled_squashed hbody
  | loop x fast => exact Piece.labelled_looped _ x hbody

theorem nested (r : Region) (hbody : Nested body) :
    Nested (r.opening first ++ (body ++ r.closing first)) := by
  cases r with
  | squash => exact .block rfl hbody (.of_all rfl)
  | loop x fast =>
    have hbefore : Nested [.name (if fast then .loadFast else .loadGlobal) x, .bare .getIter,
      .mark ⟨first⟩, .jump .forIter ⟨first + 1⟩] := .of_all rfl
    have hbehind : Nested [.jump .jumpAbsolute ⟨first⟩, .mark ⟨first + 1⟩] := .of_all rfl
    have hend : Nested [.mark ⟨first + 2⟩] := .of_all rfl
    have hop : Op.opensBlock (.jump .setupLoop ⟨first + 2⟩) = true := rfl
    have hloop := Nested.block hop (hbefore.append (hbody.append hbehind)) hend
    simpa [opening, closing] using hloop

end Region

/-! ### Scripts -/

/-- The operation is no label, no jump, and neither opens nor closes a block. -/
def Op.isOrdinary : Op → Bool
  | .mark _ | .jump _ _ => false
  | op => op.inBlock

/-- What a body does to its generator, step by step.  What it does after a region may depend on how
the region ended, so a failure can be passed on, replaced or ignored. -/
inductive Script where
  | done (answer : Except AssembleError Unit)
  | push (op : Op) (ordinary : op.isOrdinary = true) (rest : Script)
  | look (rest : Generator → Script)
  | reserve (rest : Label → Script)
  | region (r : Region) (body : Script) (rest : Except AssembleError Unit → Script)

namespace Script

/-- The end of an emitter with an answer, where `g` is left. -/
def outcome (answer : Except AssembleError Unit) : Emit Unit := fun g =>
  match answer with
  | .ok _ => .ok () g
  | .error e => .error e g

def run : Script → Emit Unit
  | done answer => outcome answer
  | push op _ rest => do
    Generator.push op
    rest.run
  | look rest => do (rest (← get)).run
  | reserve rest => do (rest (← newLabel)).run
  | region r body rest => do (rest (← observing (r.around body.run))).run

/-- The script ends with an answer and leaves a generator.  After a region it goes on with the
answer of the region's own body, and with what the body left, closed. -/
inductive Ends : Script → Generator → Except AssembleError Unit → Generator → Prop
  | done (answer : Except AssembleError Unit) (g : Generator) : Ends (.done answer) g answer g
  | push {op : Op} {ordinary : op.isOrdinary = true} {rest : Script} {g g' : Generator}
      {answer : Except AssembleError Unit} (hrest : Ends rest (g.append [op]) answer g') :
      Ends (.push op ordinary rest) g answer g'
  | look {rest : Generator → Script} {g g' : Generator} {answer : Except AssembleError Unit}
      (hrest : Ends (rest g) g answer g') : Ends (.look rest) g answer g'
  | reserve {rest : Label → Script} {g g' : Generator} {answer : Except AssembleError Unit}
      (hrest : Ends (rest ⟨g.labels.allocated⟩) { g with labels := ⟨g.labels.allocated + 1⟩ }
        answer g') : Ends (.reserve rest) g answer g'
  | region {r : Region} {body : Script} {rest : Except AssembleError Unit → Script}
      {g inner g' : Generator} {own answer : Except AssembleError Unit}
      (hbody : Ends body (r.opened g) own inner)
      (hrest : Ends (rest own) (inner.append (r.closing g.labels.allocated)) answer g') :
      Ends (.region r body rest) g answer g'

variable {s body : Script} {g g' : Generator} {answer : Except AssembleError Unit}

theorem outcome_inj {answer' : Except AssembleError Unit} :
    outcome answer g = outcome answer' g' ↔ answer = answer' ∧ g = g' := by
  cases answer <;> cases answer' <;> simp [outcome]

theorem around_eq (r : Region) (h : body.run (r.opened g) = outcome answer g') :
    r.around body.run g = outcome answer (g'.append (r.closing g.labels.allocated)) := by
  have hbracket : r.around body.run g = bracket (r.opening g.labels.allocated)
      (r.closing g.labels.allocated) body.run
      { g with labels := ⟨g.labels.allocated + r.labels⟩ } := by
    cases r <;> rfl
  rw [Region.opened] at h
  rw [hbracket, bracket, h]
  cases answer <;> rfl

theorem observing_eq {action : Emit Unit} (h : action g = outcome answer g') :
    observing action g = .ok answer g' := by
  show EStateM.tryCatch (EStateM.bind action _) _ g = _
  rw [EStateM.tryCatch, EStateM.bind, h]
  cases answer <;> rfl

theorem Ends.run_eq (h : s.Ends g answer g') : s.run g = outcome answer g' := by
  induction h with
  | done answer g => rfl
  | push _ ih | look _ ih | reserve _ ih => exact ih
  | @region r body rest g inner g' own answer _ _ ihbody ihrest =>
    show EStateM.bind (observing (r.around body.run)) (fun own => (rest own).run) g = _
    rw [EStateM.bind, observing_eq (around_eq r ihbody)]
    exact ihrest

/-! ### What a script leaves -/

theorem exists_ends (s : Script) (g : Generator) :
    ∃ answer labels ops, s.Ends g answer { g with labels, ops := g.ops ++ ops } ∧
      Labelled true g.labels.allocated labels.allocated ops ∧ Nested ops := by
  induction s generalizing g with
  | done answer =>
    refine ⟨answer, g.labels, [], ?_, .nil _ _, .nil⟩
    rw [append_nil]
    exact .done answer g
  | push op ordinary rest ih =>
    obtain ⟨answer, labels, ops, hends, hlabelled, hnested⟩ := ih (g.append [op])
    have hsingle : Labelled true g.labels.allocated g.labels.allocated [op] := by
      refine .single _ _ ?_ ?_
      · rintro l rfl
        cases ordinary
      · rintro o l rfl
        cases ordinary
    have hop : op.inBlock = true := by
      cases op with
      | mark | jump => cases ordinary
      | _ => exact ordinary
    refine ⟨answer, labels, op :: ops, .push ?_, hsingle.append hlabelled, .cons hop hnested⟩
    simpa [Generator.append] using hends
  | look rest ih =>
    obtain ⟨answer, labels, ops, hends, hrest⟩ := ih g g
    exact ⟨answer, labels, ops, .look hends, hrest⟩
  | reserve rest ih =>
    obtain ⟨answer, labels, ops, hends, hlabelled, hnested⟩ :=
      ih ⟨g.labels.allocated⟩ { g with labels := ⟨g.labels.allocated + 1⟩ }
    exact ⟨answer, labels, ops, .reserve hends, hlabelled.of_le (Nat.le_succ _), hnested⟩
  | region r body rest ihbody ihrest =>
    let first := g.labels.allocated
    obtain ⟨own, mid, inner, hbody, hinner, hnested⟩ := ihbody (r.opened g)
    obtain ⟨answer, labels, ops, hends, hlabelled, hrest⟩ := ihrest own
      (Generator.append { r.opened g with labels := mid, ops := (r.opened g).ops ++ inner }
        (r.closing first))
    refine ⟨answer, labels, (r.opening first ++ (inner ++ r.closing first)) ++ ops,
      .region hbody ?_, (r.labelled hinner).append hlabelled, (r.nested hnested).append hrest⟩
    simpa [Generator.append, Region.opened] using hends

end Script

/-- The stream of the generator is complete: its labels pass the check and belong to the generator,
its forward jumps lead forward, and its blocks come in pairs. -/
structure Generator.Tidy (g : Generator) : Prop where
  checked : checkLabels g.ops = .ok ()
  allocated : ∀ l ∈ marks g.ops, l.id < g.labels.allocated
  forward : Forward true g.ops
  nested : Nested g.ops

theorem Generator.tidy_iff {g : Generator} :
    g.Tidy ↔ Labelled true 0 g.labels.allocated g.ops ∧ Nested g.ops := by
  constructor
  · rintro ⟨hchecked, hallocated, hforward, hnested⟩
    obtain ⟨hnodup, hmarked⟩ := checkLabels_eq_ok_iff.1 hchecked
    exact ⟨⟨Nat.zero_le _, fun l hl => ⟨Nat.zero_le _, hallocated l hl⟩, hnodup, hmarked, hforward⟩,
      hnested⟩
  · rintro ⟨hlabelled, hnested⟩
    exact ⟨checkLabels_eq_ok_iff.2 ⟨hlabelled.nodup, hlabelled.marked⟩,
      fun l hl => (hlabelled.range l hl).2, hlabelled.forward, hnested⟩

/-- Whatever a script does to a tidy generator and wherever it fails, it leaves a tidy generator,
with blocks in pairs behind what was there, and the operations can be encoded.  Its answer and what
it leaves are given by the rules of `Script.Ends`, by which each region ends as its own body did. -/
theorem regions_always_close (s : Script) {g : Generator} (hg : g.Tidy) :
    ∃ answer g', s.run g = Script.outcome answer g' ∧
      (∀ a h, s.Ends g a h ↔ a = answer ∧ h = g') ∧ g'.Tidy ∧
      (∃ ops, g'.ops = g.ops ++ ops ∧ Nested ops) ∧
      ∀ p, ∃ code last, encode g'.ops 0 p g'.ops = .ok (code, last) := by
  obtain ⟨answer, labels, ops, hends, hlabelled, hnested⟩ := s.exists_ends g
  obtain ⟨hbefore, hnested'⟩ := tidy_iff.1 hg
  have hall := hbefore.append hlabelled
  refine ⟨answer, _, hends.run_eq, fun a h => ⟨fun hends' => ?_, ?_⟩,
    tidy_iff.2 ⟨hall, hnested'.append hnested⟩, ⟨ops, rfl, hnested⟩,
    exists_encode_of_forward hall.nodup hall.marked hall.forward⟩
  · exact Script.outcome_inj.1 (hends'.run_eq.symm.trans hends.run_eq)
  · rintro ⟨rfl, rfl⟩
    exact hends

/-- A loop whose body ignores the failure of a region in it, and then fails for its own reason. -/
def failingTwice : Script :=
  .region (.loop "items" true)
    (.region .squash
      (.push (.name .storeFast "item") rfl (.done (.error (.duplicateParameter "a"))))
      fun _ => .push (.const .none) rfl (.done (.error (.duplicateParameter "b")))) .done

theorem failingTwice_closes :
    (⟨"regions", [], {}, sourceCompiler⟩ : Generator).Tidy ∧
    ∃ g', failingTwice.run ⟨"regions", [], {}, sourceCompiler⟩ =
        .error (.duplicateParameter "b") g' ∧ g'.Tidy ∧ g'.ops.countP Op.opensBlock = 2 ∧
      ∀ p, ∃ code last, encode g'.ops 0 p g'.ops = .ok (code, last) := by
  have hg : (⟨"regions", [], {}, sourceCompiler⟩ : Generator).Tidy := tidy_iff.2 ⟨.nil _ _, .nil⟩
  obtain ⟨answer, g', hrun, -, htidy, -, hencode⟩ := regions_always_close failingTwice hg
  obtain ⟨-, rfl⟩ := Script.outcome_inj.1
    (show Script.outcome (.error (.duplicateParameter "b")) _ = _ from hrun)
  exact ⟨hg, _, rfl, htidy, rfl, hencode⟩

end Bytewright
