import Bytewright.Proofs.Generator.Splice
import Bytewright.Proofs.Scope.Stream

/-!
# Streams of compiled fragments

The stream of a fragment jumps forward only, and never over a store, as stores stand between
statements and jumps inside of expressions.
-/

namespace Bytewright

open Assemble OfCode List

/-! ### Streams whose jumps skip no store -/

namespace Scope

/-- Jumps lead forward, and over no store. -/
def Level : Stream → Prop
  | [] => True
  | op :: ops => (∀ l, op.jumpTarget = some l →
      ∃ mid tail, ops = mid ++ .mark l :: tail ∧ stored mid = []) ∧ Level ops

theorem Level.append {a b : Stream} (ha : Level a) (hb : Level b) : Level (a ++ b) := by
  induction a with
  | nil => exact hb
  | cons op a ih =>
    refine ⟨fun l hl => ?_, ih ha.2⟩
    obtain ⟨mid, tail, rfl, hmid⟩ := ha.1 l hl
    exact ⟨mid, tail ++ b, append_assoc _ _ _, hmid⟩

theorem Level.of_append {a b : Stream} (h : Level (a ++ b)) : Level b := by
  induction a with
  | nil => exact h
  | cons op a ih => exact ih h.2

structure Calm (ops : Stream) : Prop where
  plain : ∀ op ∈ ops, op.isPlain = true
  level : Level ops

structure Quiet (ops : Stream) : Prop extends Calm ops where
  stored_eq : stored ops = []

variable {a b : Stream}

theorem Calm.append (ha : Calm a) (hb : Calm b) : Calm (a ++ b) where
  plain op hop := (mem_append.1 hop).elim (ha.plain op) (hb.plain op)
  level := ha.level.append hb.level

theorem Calm.op {op : Op} (hplain : op.isPlain = true := by rfl)
    (hjump : op.jumpTarget = none := by rfl) : Calm [op] where
  plain _ hop := mem_singleton.1 hop ▸ hplain
  level := ⟨fun l hl => (by rw [hjump] at hl; cases hl), trivial⟩

theorem Quiet.nil : Quiet [] := ⟨⟨by simp, trivial⟩, rfl⟩

theorem Quiet.append (ha : Quiet a) (hb : Quiet b) : Quiet (a ++ b) :=
  ⟨ha.toCalm.append hb.toCalm, by rw [stored_append, ha.stored_eq, hb.stored_eq]; rfl⟩

theorem Quiet.op {op : Op} (hplain : op.isPlain = true := by rfl)
    (hjump : op.jumpTarget = none := by rfl) (hstore : stored [op] = [] := by rfl) : Quiet [op] :=
  ⟨.op hplain hjump, hstore⟩

theorem Quiet.jump {o : JumpOp} {l : Label} {mid tail : Stream}
    (hplain : (Op.jump o l).isPlain = true) (hmid : stored mid = [])
    (h : Quiet (mid ++ .mark l :: tail)) : Quiet (.jump o l :: (mid ++ .mark l :: tail)) where
  plain := forall_mem_cons.2 ⟨hplain, h.plain⟩
  level := by
    refine ⟨fun m hm => ?_, h.level⟩
    cases hm
    exact ⟨mid, tail, rfl, hmid⟩
  stored_eq := h.stored_eq

theorem Quiet.choice {cond yes no : Stream} (hcond : Quiet cond) (hyes : Quiet yes) (hno : Quiet no)
    (l m : Label) : Quiet (cond ++ [.jump .popJumpIfFalse l] ++ yes ++
      [.jump .jumpForward m, .mark l] ++ no ++ [.mark m]) := by
  have hmark (l : Label) : Quiet [.mark l] := .op
  have hno' : Quiet ((.mark l :: no) ++ .mark m :: []) := ((hmark l).append hno).append (hmark m)
  have hend : Quiet (.jump .jumpForward m :: ((.mark l :: no) ++ .mark m :: [])) :=
    .jump rfl hno.stored_eq hno'
  have hyes' : Quiet ((yes ++ [.jump .jumpForward m]) ++ .mark l :: (no ++ [.mark m])) := by
    simpa using hyes.append hend
  have hmid : stored (yes ++ [.jump .jumpForward m]) = [] := by
    rw [stored_append, hyes.stored_eq]
    rfl
  simpa using hcond.append (.jump (o := .popJumpIfFalse) rfl hmid hyes')

theorem Calm.straight {ops : Stream} (h : Calm ops) (hmarks : (marks ops).Nodup) :
    Straight ops where
  plain := h.plain
  jumps {n o l place x} hjump hplace hx := by
    obtain ⟨front, back, rfl, htake⟩ := exists_split hjump
    obtain ⟨mid, tail, rfl, hmid⟩ := (h.level.of_append).1 l rfl
    have hops : front ++ .jump o l :: (mid ++ .mark l :: tail) =
        (front ++ .jump o l :: mid) ++ .mark l :: tail := by
      rw [append_assoc, cons_append]
    -- the label is marked nowhere else, so the jump leads behind `mid`
    have hplace' : place = size (front ++ .jump o l :: mid) := by
      rw [hops, marks_append] at hmarks
      have hnot : l ∉ marks (front ++ .jump o l :: mid) := fun hl =>
        (nodup_append.1 hmarks).2.2 l hl l (mem_cons_self ..) rfl
      rw [hops, position?_append, position?_eq_none_of_notMem hnot, Option.none_or, position?,
        if_pos rfl, Nat.zero_add] at hplace
      exact (Option.some.inj hplace).symm
    rw [hplace', hops, reals_append, ← length_reals, take_left, stored_reals, stored_append,
      mem_append] at hx
    rw [htake, stored_reals]
    rcases hx with hx | hx
    · exact hx
    · have hx' : x ∈ stored mid := hx
      rw [hmid] at hx'
      cases hx'

end Scope

/-! ### Emitted streams -/

variable {ls : Labels} {body : List Stmt} {c : Code}

section Emit

open Scope

mutual

theorem quiet_emit : ∀ (e : Expr) (ls : Labels), Quiet (e.emit ls).1
  | .literal c, ls => .op
  | .name x, ls => .op
  | .attribute obj attr, ls => (quiet_emit obj ls).append .op
  | .subscript obj key, ls =>
    ((quiet_emit obj ls).append (quiet_emit key _)).append .op
  | .call func args kwargs, ls =>
    (((quiet_emit func ls).append (quiet_emitAll args _)).append
      (quiet_emitKeywords kwargs _)).append .op
  | .tuple items, ls => by
    rw [Expr.emit]
    split
    · exact .op
    · exact (quiet_emitAll items ls).append .op
  | .list items, ls => (quiet_emitAll items ls).append .op
  | .dict pairs, ls => by
    rw [Expr.emit]
    exact Quiet.append (a := [_]) .op (quiet_emitPairs pairs ls)
  | .negate operand, ls => (quiet_emit operand ls).append .op
  | .not operand, ls => (quiet_emit operand ls).append .op
  | .binary op left right, ls =>
    ((quiet_emit left ls).append (quiet_emit right _)).append .op
  | .compare op left right, ls =>
    ((quiet_emit left ls).append (quiet_emit right _)).append .op
  | .ifElse cond then_ else_, ls =>
    .choice (quiet_emit cond _) (quiet_emit then_ _) (quiet_emit else_ _) _ _

theorem quiet_emitAll : ∀ (es : List Expr) (ls : Labels), Quiet (emitAll es ls).1
  | [], _ => .nil
  | e :: es, ls => (quiet_emit e ls).append (quiet_emitAll es _)

theorem quiet_emitKeywords : ∀ (es : List (String × Expr)) (ls : Labels),
    Quiet (emitKeywords es ls).1
  | [], _ => .nil
  | (_, e) :: es, ls =>
    (Quiet.append (a := [_]) .op (quiet_emit e ls)).append (quiet_emitKeywords es _)

theorem quiet_emitPairs : ∀ (es : List (Expr × Expr)) (ls : Labels), Quiet (emitPairs es ls).1
  | [], _ => .nil
  | (key, value) :: es, ls =>
    ((quiet_emit value ls).append (quiet_emit key _)).append
      (Quiet.append (a := [_]) .op (quiet_emitPairs es _))

end

theorem calm_emit_target (t : Target) (ls : Labels) : Calm (t.emit ls).1 := by
  rcases t with x | ⟨obj, attr⟩ | ⟨obj, key⟩
  · exact .op
  · exact (quiet_emit obj ls).toCalm.append .op
  · exact ((quiet_emit obj ls).append (quiet_emit key _)).toCalm.append .op

theorem calm_emit_action {a : Action} (hdelete : ∀ x, .name .deleteName x ∉ (a.emit ls).1) :
    Calm (a.emit ls).1 := by
  cases a with
  | expr e | raise e => exact (quiet_emit e ls).toCalm.append .op
  | assign target value => exact (quiet_emit value ls).toCalm.append (calm_emit_target target _)
  | delete x => exact (hdelete x mem_cons_self).elim
  | pass => exact Quiet.nil.toCalm

theorem calm_emitSuite (hdelete : ∀ x, .name .deleteName x ∉ (emitSuite body ls).1) :
    Calm (emitSuite body ls).1 := by
  induction body generalizing ls with
  | nil => exact Quiet.nil.toCalm
  | cons s body ih =>
    have hemit : (emitSuite (s :: body) ls).1 =
        [.line s.line] ++ (s.action.emit ls).1 ++ (emitSuite body (s.action.emit ls).2).1 := by
      rw [emitSuite, Stmt.emit]
      rfl
    rw [hemit] at hdelete ⊢
    have hline : Calm [.line s.line] := .op
    refine (hline.append (calm_emit_action fun x hx => hdelete x ?_)).append
      (ih fun x hx => hdelete x ?_)
    · exact mem_append_left _ (mem_append_right _ hx)
    · exact mem_append_right _ hx

end Emit

/-! ### Streams of fragments -/

/-- The streams of compiled fragments. -/
inductive FragmentStream : Stream → Prop
  | suite (body : List Stmt) (ls : Labels) :
      FragmentStream ((emitSuite body ls).1 ++ [.const .none, .bare .returnValue])
  | expression (e : Expr) (ls : Labels) :
      FragmentStream (.line 1 :: (e.emit ls).1 ++ [.bare .returnValue])
  | unit {fragment : Fragment} {fileName : String} {mode : Mode} {c : Code} {ls ls' : Labels}
      {ops : Stream} (hc : sourceCompiler fragment fileName mode = .ok c)
      (hops : c.toStream ls = (.ok ops, ls')) : FragmentStream ops

namespace Scope

variable {ops ops' : Stream} {rename : Label → Label}

theorem stored_of_renamed {a b : Stream} (h : List.Forall₂ (Op.Renamed rename) a b) :
    stored b = stored a := by
  induction h with
  | nil => rfl
  | @cons op op' a b hop _ ih =>
    rw [stored_cons, stored_cons op, ih]
    congr 1
    cases op with
    | const c =>
      obtain ⟨k, rfl, -⟩ := hop
      rfl
    | jump o l =>
      cases hop
      rfl
    | _ =>
      cases hop
      rfl

theorem isPlain_of_renamed {op op' : Op} (h : op.Renamed rename op') :
    op'.isPlain = op.isPlain := by
  cases op with
  | const c =>
    obtain ⟨k, rfl, -⟩ := h
    rfl
  | _ =>
    cases h
    rfl

theorem isPlain_of_not_isReal {op : Op} (h : op.isReal = false) : op.isPlain = true := by
  cases op with
  | line | mark => rfl
  | _ => cases h

theorem Straight.of_renamed (h : Straight ops)
    (hreals : List.Forall₂ (Op.Renamed rename) (reals ops) (reals ops'))
    (hplaces : ∀ l ∈ references ops, position? (rename l) 0 ops' = position? l 0 ops) :
    Straight ops' where
  plain op' hop' := by
    cases hreal : op'.isReal with
    | false => exact isPlain_of_not_isReal hreal
    | true =>
      obtain ⟨n, hn⟩ := mem_iff_getElem?.1 (mem_filter.2 ⟨hop', hreal⟩)
      rcases optionRel_cases (getElem?_rel hreals n) with ⟨-, hnone⟩ | ⟨op, op'', hop, hop'', hrel⟩
      · rw [reals, hn] at hnone
        cases hnone
      · rw [reals, hn] at hop''
        cases hop''
        rw [isPlain_of_renamed hrel]
        exact h.plain op (mem_of_mem_filter (mem_of_getElem? hop))
  jumps {n o l' place x} hjump hplace hx := by
    rcases optionRel_cases (getElem?_rel hreals n) with ⟨-, hnone⟩ | ⟨op, op', hop, hop', hrel⟩
    · rw [hjump] at hnone
      cases hnone
    · rw [hjump] at hop'
      cases hop'
      obtain ⟨l, rfl, rfl⟩ : ∃ l, op = .jump o l ∧ l' = rename l := by
        cases op with
        | const c =>
          obtain ⟨k, hk, -⟩ := hrel
          cases hk
        | jump o l =>
          cases hrel
          exact ⟨l, rfl, rfl⟩
        | _ => cases hrel
      have hmem : l ∈ references ops :=
        mem_references_iff.2 ⟨o, mem_of_mem_filter (mem_of_getElem? hop)⟩
      rw [hplaces l hmem] at hplace
      rw [stored_of_renamed (forall₂_take place hreals)] at hx
      rw [stored_of_renamed (forall₂_take n hreals)]
      exact h.jumps hop hplace hx

end Scope

theorem size_of_toStream {ls' : Labels} {ops : Stream} (h : c.toStream ls = (.ok ops, ls')) :
    size ops = c.code.length := by
  obtain ⟨targets, read, -, hread, rfl⟩ := exists_of_toStream h
  rw [stream, size_append, size_append, size_opening, size_markAt, size_operations hread,
    Nat.add_zero]

theorem exists_assembled_of_sourceCompiler {fragment : Fragment} {fileName : String} {mode : Mode}
    (h : sourceCompiler fragment fileName mode = .ok c) :
    ∃ ops line, Assembled fileName ops { name := "<module>", firstLine := line } c ∧
      ((∃ body ls, ops = (emitSuite body ls).1 ++ [.const .none, .bare .returnValue]) ∨
        ∃ (e : Expr) (ls : Labels), ops = .line 1 :: (e.emit ls).1 ++ [.bare .returnValue]) := by
  have hfinish {ops : Stream} {line : UInt32} (h : finishFragment fileName ops line = .ok c) :
      Assembled fileName ops { name := "<module>", firstLine := line } c := by
    rw [finishFragment] at h
    split at h
    · next hassemble =>
      cases h
      exact assemble_eq_ok_iff.1 hassemble
    · cases h
  cases fragment with
  | source text =>
    cases mode with
    | statements =>
      cases hparse : parseStatements text with
      | error e =>
        simp only [sourceCompiler, hparse, bind, Except.bind, reduceCtorEq] at h
      | ok body =>
        simp only [sourceCompiler, hparse, bind, Except.bind] at h
        exact ⟨_, _, hfinish h, .inl ⟨body, {}, rfl⟩⟩
    | expression =>
      cases hparse : parseExpression text with
      | error e =>
        simp only [sourceCompiler, hparse, bind, Except.bind, reduceCtorEq] at h
      | ok e =>
        simp only [sourceCompiler, hparse, bind, Except.bind] at h
        exact ⟨_, _, hfinish h, .inr ⟨e, {}, rfl⟩⟩
  | statements body =>
    cases mode with
    | statements => exact ⟨_, _, hfinish h, .inl ⟨body, {}, rfl⟩⟩
    | expression => cases h
  | expression e =>
    cases mode with
    | statements => cases h
    | expression => exact ⟨_, _, hfinish h, .inr ⟨e, {}, rfl⟩⟩

theorem calm_suite (hdelete : ∀ x, .name .deleteName x ∉
      (emitSuite body ls).1 ++ [.const .none, .bare .returnValue]) :
    Scope.Calm ((emitSuite body ls).1 ++ [.const .none, .bare .returnValue]) := by
  have hnone : Scope.Calm [.const .none] := .op
  exact (calm_emitSuite fun x hx => hdelete x (mem_append_left _ hx)).append
    (hnone.append .op)

theorem calm_expression (e : Expr) (ls : Labels) :
    Scope.Calm (.line 1 :: (e.emit ls).1 ++ [.bare .returnValue]) := by
  have hline : Scope.Calm [.line 1] := .op
  exact (hline.append (quiet_emit e ls).toCalm).append .op

theorem FragmentStream.straight {ops : Stream} (h : FragmentStream ops)
    (hdelete : ∀ x, .name .deleteName x ∉ ops) (hsize : size ops < 4294967296)
    (hmarks : (marks ops).Nodup) : Scope.Straight ops := by
  cases h with
  | suite body ls => exact (calm_suite hdelete).straight hmarks
  | expression e ls => exact (calm_expression e ls).straight hmarks
  | unit hc hops =>
    obtain ⟨emitted, line, hassembled, hemitted⟩ := exists_assembled_of_sourceCompiler hc
    have haddressable := hassembled.addressable rfl rfl (by
      rw [← length_of_encode hassembled.encode_eq, ← size_of_toStream hops]
      exact hsize)
    obtain ⟨ops', ls'', rename, hops', hreals, hplaces, -⟩ :=
      hassembled.exists_toStream haddressable _
    rw [hops] at hops'
    cases hops'
    have hdelete' (x : String) : .name .deleteName x ∉ emitted := fun hx => by
      have hreal : .name .deleteName x ∈ reals emitted := mem_filter.2 ⟨hx, rfl⟩
      obtain ⟨n, hn⟩ := mem_iff_getElem?.1 hreal
      rcases optionRel_cases (getElem?_rel hreals n) with ⟨hnone, -⟩ | ⟨op, op', hop, hop', hrel⟩
      · rw [hn] at hnone
        cases hnone
      · rw [hn] at hop
        cases hop
        cases hrel
        exact hdelete x (mem_of_mem_filter (mem_of_getElem? hop'))
    have hcalm : Scope.Calm emitted := by
      rcases hemitted with ⟨body, ls, rfl⟩ | ⟨e, ls, rfl⟩
      · exact calm_suite hdelete'
      · exact calm_expression e ls
    exact (hcalm.straight (checkLabels_eq_ok_iff.1 hassembled.labels).1).of_renamed hreals hplaces

end Bytewright
