import Bytewright.Proofs.Inversion.Depth

/-!
# Traced streams are assembled

A report leaves the stack as deep as it finds it, and on the way the stack is deeper by at most five
values.  A nested stream reads its tracer by name, so the traced unit has the fast locals and the
free variables of the plain one.
-/

namespace Bytewright

open Assemble OfCode List

variable {p p' last : Pools} {arg : UInt32} {code : List Instruction} {index : Nat}

namespace Tracing

/-! ### The traced stream -/

/-- The unit is nested in the stream and has no locals of its own. -/
def Shares (ops : Stream) (k : Code) : Prop :=
  .const (.code k) ∈ ops ∧ k.flags.contains .newLocals = false

def remade (f : Code → Code) : Op → Op
  | .const (.code k) => .const (.code (if k.flags.contains .newLocals then k else f k))
  | op => op

/-- The stream with a report before each operation and its nested units remade. -/
def woven (f : Code → Code) (nested : Bool) (ops : Stream) : Stream :=
  ops.flatMap fun op => before (receiver nested) op ++ [remade f op]

variable {f : Code → Code} {nested : Bool} {op o : Op} {ops : Stream} {front back : Stream}

@[simp] theorem woven_nil : woven f nested [] = [] := rfl

theorem woven_cons (op : Op) (ops : Stream) :
    woven f nested (op :: ops) =
      before (receiver nested) op ++ remade f op :: woven f nested ops := by
  rw [woven, flatMap_cons, append_assoc]
  rfl

theorem stream_eq_woven {inner : Code → Except AssembleError Code}
    (h : ∀ k, Shares ops k → inner k = .ok (f k)) :
    stream inner nested ops = .ok (woven f nested ops) := by
  induction ops with
  | nil => rfl
  | cons op ops ih =>
    have hop : itself inner op = .ok (remade f op) := by
      cases op with
      | const c =>
        cases c with
        | code k =>
          cases hlocals : k.flags.contains .newLocals with
          | true => simp [itself, remade, hlocals]
          | false => simp [itself, remade, hlocals, h k ⟨mem_cons_self, hlocals⟩, Except.map]
        | _ => rfl
      | _ => rfl
    rw [stream, hop, ih fun k hk => h k ⟨mem_cons_of_mem _ hk.1, hk.2⟩, woven_cons]
    rfl

/-! ### Layout -/

theorem isReportOp_of_mem_before (h : o ∈ before (receiver nested) op) : isReportOp o = true := by
  have hall : (before (receiver nested) op).all isReportOp = true := by
    unfold before
    cases nested <;> split <;> rfl
  exact all_eq_true.1 hall o h

theorem length_before (nested : Bool) (op : Op) :
    (before (receiver nested) op).length = (report op).length := by
  unfold report before
  split <;> rfl

theorem size_before (nested : Bool) (op : Op) :
    size (before (receiver nested) op) = (report op).length := by
  rw [← length_before nested, size, countP_eq_length]
  exact fun o ho => isReal_of_isReportOp (isReportOp_of_mem_before ho)

theorem before_of_not_isReal (nested : Bool) (h : op.isReal = false) :
    before (receiver nested) op = [] := by
  rw [← length_eq_zero_iff, length_before, report_of_not_isReal h, length_nil]

theorem opcode_remade (f : Code → Code) (op : Op) : (remade f op).opcode = op.opcode := by
  unfold remade
  split <;> rfl

theorem effect_remade (f : Code → Code) (op : Op) : (remade f op).effect = op.effect := by
  unfold remade
  split <;> rfl

theorem isReal_remade (f : Code → Code) (op : Op) : (remade f op).isReal = op.isReal := by
  unfold remade
  split <;> rfl

theorem remade_of_not_isReal (h : op.isReal = false) : remade f op = op := by
  cases op with
  | line | mark => rfl
  | _ => cases h

theorem marks_before (nested : Bool) (op : Op) : marks (before (receiver nested) op) = [] := by
  rw [eq_nil_iff_forall_not_mem]
  intro l hl
  cases isReportOp_of_mem_before (mem_marks_iff.1 hl)

theorem marks_woven (f : Code → Code) (nested : Bool) (ops : Stream) :
    marks (woven f nested ops) = marks ops := by
  induction ops with
  | nil => rfl
  | cons op ops ih =>
    rw [woven_cons, marks_append, marks_before, nil_append]
    by_cases hreal : op.isReal = true
    · rw [marks_cons_of_isReal ((isReal_remade f op).trans hreal), marks_cons_of_isReal hreal, ih]
    · rw [remade_of_not_isReal (Bool.eq_false_iff.2 hreal)]
      cases op with
      | mark l => rw [marks_cons_mark, marks_cons_mark, ih]
      | line n => exact ih
      | _ => exact absurd rfl hreal

theorem references_woven (f : Code → Code) (nested : Bool) (ops : Stream) :
    references (woven f nested ops) = references ops := by
  induction ops with
  | nil => rfl
  | cons op ops ih =>
    have hbefore : references (before (receiver nested) op) = [] := by
      rw [eq_nil_iff_forall_not_mem]
      intro l hl
      obtain ⟨o, ho⟩ := mem_references_iff.1 hl
      cases isReportOp_of_mem_before ho
    have hremade : (remade f op).jumpTarget = op.jumpTarget := by
      unfold remade
      split <;> rfl
    rw [woven_cons, references_append, hbefore, nil_append, references_cons, references_cons,
      hremade, ih]

theorem position?_woven (l : Label) (index : Nat) (ops : Stream) :
    position? l index (woven f nested ops) = position? l index (traced ops) := by
  have hbefore (nested : Bool) (op : Op) (index : Nat) :
      position? l index (before (receiver nested) op) = none :=
    position?_eq_none_of_notMem (by rw [marks_before]; exact not_mem_nil) index
  induction ops generalizing index with
  | nil => rfl
  | cons op ops ih =>
    rw [woven_cons, traced_cons, report, position?_append, position?_append, hbefore, hbefore,
      Option.none_or, Option.none_or, size_before, size_before]
    by_cases hreal : op.isReal = true
    · rw [position?_cons_of_isReal hreal,
        position?_cons_of_isReal ((isReal_remade f op).trans hreal), ih]
    · rw [remade_of_not_isReal (Bool.eq_false_iff.2 hreal)]
      cases op with
      | mark m => rw [position?, position?, ih]
      | line n => exact ih _
      | _ => exact absurd rfl hreal

theorem size_woven (f : Code → Code) (nested : Bool) (ops : Stream) :
    size (woven f nested ops) = size (traced ops) := by
  induction ops with
  | nil => rfl
  | cons op ops ih =>
    have hsize : size (remade f op :: woven f nested ops) = size (op :: traced ops) := by
      rw [size, size, countP_cons, countP_cons, isReal_remade]
      exact congrArg (· + _) ih
    rw [woven_cons, traced_cons, size_append, size_append, size_before, size_report, hsize]

theorem place_mono (ops : Stream) {m n : Nat} (h : m ≤ n) : place ops m ≤ place ops n := by
  obtain ⟨rest, hrest⟩ : (reals ops).take m <+: (reals ops).take n := take_prefix_take_left h
  rw [place, place, ← hrest, traced_append, size_append]
  exact Nat.le_add_right _ _

theorem size_concat (h : op.isReal = true) (front : Stream) :
    size (front ++ [op]) = size front + 1 := by
  rw [size_append, size_cons_of_isReal h]
  rfl

theorem size_traced_concat (h : op.isReal = true) (front : Stream) :
    size (traced (front ++ [op])) = size (traced front) + (report op).length + 1 := by
  rw [traced_append, size_append, size_traced_cons_of_isReal h]
  rfl

theorem place_behind (hops : ops = front ++ op :: back) (h : op.isReal = true) :
    place ops (size front + 1) = size (traced front) + (report op).length + 1 := by
  rw [hops, append_cons, ← size_concat h, place_size, size_traced_concat h]

/-! ### The depth of a report -/

section Depth

open Inversion (LeadsFrom leadsFrom_nil leadsFrom_cons leadsFrom_const effect_callFunction)

variable {whole rest : Stream} {top d e : Int} {method : String}

theorem leadsFrom_receiver (hrest : LeadsFrom whole top rest (d + 1) e)
    (hd : 0 ≤ d := by omega) (htop : d + 1 ≤ top := by omega) :
    LeadsFrom whole top (receiver nested :: .name .loadAttr method :: rest) d e := by
  have hattr : LeadsFrom whole top (.name .loadAttr method :: rest) (d + 1) e :=
    leadsFrom_cons 1 1 (by omega) hrest
  cases nested <;> exact leadsFrom_cons 0 1 (by omega) hattr

theorem leadsFrom_drop {n : UInt8} {m : Int} (k : Nat) (hm : d - k - 1 = m)
    (hrest : LeadsFrom whole top rest m e) (hk : n.toNat = k := by rfl)
    (hd : (k : Int) + 1 ≤ d := by omega) (htop : d ≤ top := by omega) :
    LeadsFrom whole top (plainCall n :: .bare .popTop :: rest) d e := by
  have heffect : (plainCall n).effect = (1 + k, 1) := hk ▸ effect_callFunction n 0
  refine leadsFrom_cons (1 + k) 1 rfl ?_ heffect
  exact leadsFrom_cons 1 0 (by omega) hrest

theorem leadsFrom_reportTop (hd : 1 ≤ d) :
    LeadsFrom whole (d + 5) (reportTop (receiver nested) method) d d := by
  refine leadsFrom_cons 1 2 rfl ?_
  refine leadsFrom_receiver ?_
  refine leadsFrom_cons 2 2 rfl ?_
  exact leadsFrom_drop 1 (by omega) leadsFrom_nil

theorem leadsFrom_before (hpops : (op.effect.1 : Int) ≤ d) :
    LeadsFrom whole (d + 5) (before (receiver nested) op) d d := by
  unfold before
  split
  · replace hpops : (1 : Int) ≤ d := hpops
    refine leadsFrom_cons 1 2 rfl ?_
    refine leadsFrom_receiver ?_
    refine leadsFrom_cons 2 2 rfl ?_
    refine leadsFrom_const ?_
    exact leadsFrom_drop 2 (by omega) leadsFrom_nil
  · next args kwds =>
    rw [effect_callFunction] at hpops
    obtain ⟨n, hn⟩ : ∃ n, (flatCount args kwds).toNat = n := ⟨_, rfl⟩
    have hle : (n : Int) + 1 ≤ d := by
      rw [← hn, toNat_flatCount]
      push_cast at hpops ⊢
      omega
    have hbuild : (Op.count .buildTuple (flatCount args kwds)).effect = (n, 1) := hn ▸ rfl
    have hunpack : (Op.count .unpackSequence (flatCount args kwds)).effect = (1, n) := hn ▸ rfl
    refine leadsFrom_cons n 1 rfl ?_ hbuild
    refine leadsFrom_cons 2 4 rfl ?_
    refine leadsFrom_receiver ?_
    refine leadsFrom_cons 3 3 rfl ?_
    refine leadsFrom_const ?_
    refine leadsFrom_drop 3 rfl ?_
    refine leadsFrom_cons (m := d) 1 n (by omega) ?_ hunpack
    refine leadsFrom_cons n 1 rfl ?_ hbuild
    exact leadsFrom_cons (m := d) 1 n (by omega) leadsFrom_nil hunpack
  · replace hpops : (2 : Int) ≤ d := hpops
    refine leadsFrom_cons 2 4 rfl ?_
    refine leadsFrom_receiver ?_
    refine leadsFrom_cons 3 3 rfl ?_
    exact leadsFrom_drop 2 (by omega) leadsFrom_nil
  · exact leadsFrom_reportTop hpops
  · exact leadsFrom_reportTop hpops
  · exact leadsFrom_nil

/-! ### Traced code is laced -/

theorem exists_argument_woven (f : Code → Code) (nested : Bool) {opcode : Opcode}
    (hops : ops = front ++ op :: back) (hop : op.opcode = some opcode)
    (hsize : size (traced ops) < 4294967296) (harg : argument ops (size front) p op = .ok (arg, p'))
    (q : Pools) :
    ∃ arg' q', argument (woven f nested ops) (size (traced front) + (report op).length) q
        (remade f op) = .ok (arg', q') ∧
      Instruction.target ⟨opcode, arg'⟩ (size (traced front) + (report op).length) =
        (Instruction.target ⟨opcode, arg⟩ (size front)).map (place ops) := by
  have hreal := isReal_of_opcode hop
  have hplace := place_behind hops hreal
  cases op with
  | jump o l =>
    cases hop
    have hle := Twins.size_le ops
    obtain ⟨target, htarget, hleads⟩ := exists_position?_of_argument (by omega) harg
    have hmoved : position? l 0 (woven f nested ops) = some (place ops target) := by
      rw [position?_woven, position?_traced, htarget, Option.map_some]
    have hforward (hrel : o.isRelative = true) :
        size (traced front) + (report (.jump o l)).length < place ops target := by
      simp only [Instruction.target, hrel, if_true, Option.some.injEq] at hleads
      have hmono := place_mono ops (show size front + 1 ≤ target by omega)
      omega
    have hencode : ∃ code last, encode (woven f nested ops)
        (size (traced front) + (report (.jump o l)).length) q [.jump o l] = .ok (code, last) := by
      refine exists_encode q fun n o' l' hl => ?_
      cases n with
      | zero =>
        cases hl
        exact ⟨_, hmoved, hforward⟩
      | succ n => cases hl
    obtain ⟨code, last, hencode⟩ := hencode
    obtain ⟨arg', q', tail, harg', -⟩ := (encode_cons_eq_ok_iff rfl).1 hencode
    obtain ⟨target', htarget', hleads'⟩ :=
      exists_position?_of_argument (by rwa [size_woven]) harg'
    rw [hmoved, Option.some.injEq] at htarget'
    refine ⟨arg', q', harg', ?_⟩
    rw [hleads', hleads, ← htarget', Option.map_some]
  | line | mark => cases hop
  | const k =>
    cases hop
    cases k <;> exact ⟨_, _, rfl, rfl⟩
  | name | count | arith | compare | call | bare =>
    cases hop
    exact ⟨_, _, rfl, rfl⟩

theorem exists_laced (f : Code → Code) (nested : Bool) (hops : ops = front ++ rest)
    (hsize : size (traced ops) < 4294967296) (h : encode ops (size front) p rest = .ok (code, last))
    (q : Pools) :
    ∃ code' last', encode (woven f nested ops) (size (traced front)) q (woven f nested rest) =
        .ok (code', last') ∧ Depth.Laced (place ops) 5 (size front) code code' := by
  induction rest generalizing front p q code with
  | nil =>
    cases h
    exact ⟨[], q, rfl, .nil⟩
  | cons op rest ih =>
    have hnext : ops = (front ++ [op]) ++ rest := by simpa using hops
    cases hop : op.opcode with
    | none =>
      have hreal := isReal_of_opcode_eq_none hop
      rw [encode_cons_of_marker hop] at h
      rw [woven_cons, before_of_not_isReal nested hreal, nil_append,
        encode_cons_of_marker ((opcode_remade f op).trans hop)]
      have hfront : size (front ++ [op]) = size front := by
        rw [size_append, size_cons_of_not_isReal hreal]
        rfl
      have htraced : size (traced (front ++ [op])) = size (traced front) := by
        rw [traced_append, size_append, size_traced_cons_of_not_isReal hreal]
        rfl
      have hrest := ih hnext (by rwa [hfront]) q
      rwa [hfront, htraced] at hrest
    | some opcode =>
      have hreal := isReal_of_opcode hop
      obtain ⟨arg, p', tail, harg, htail, rfl⟩ := (encode_cons_eq_ok_iff hop).1 h
      obtain ⟨pre, q₁, hpre⟩ : ∃ pre q₁, encode (woven f nested ops) (size (traced front)) q
          (before (receiver nested) op) = .ok (pre, q₁) := by
        refine exists_encode q fun n o l hl => ?_
        cases isReportOp_of_mem_before (mem_of_mem_filter (mem_of_getElem? hl))
      obtain ⟨arg', q₂, harg', htarget⟩ := exists_argument_woven f nested hops hop hsize harg q₁
      obtain ⟨code', last', hcode', hlaced⟩ := ih hnext (by rwa [size_concat hreal]) q₂
      rw [size_traced_concat hreal] at hcode'
      rw [size_concat hreal] at hlaced
      have hlength : pre.length = (report op).length := by
        rw [length_of_encode hpre, size_before]
      refine ⟨pre ++ ⟨opcode, arg'⟩ :: code', last', ?_, ?_⟩
      · rw [woven_cons, encode_append_eq_ok_iff]
        refine ⟨q₁, pre, _, hpre, ?_, rfl⟩
        rw [size_before]
        exact (encode_cons_eq_ok_iff ((opcode_remade f op).trans hop)).2
          ⟨arg', q₂, code', harg', hcode', rfl⟩
      · have hplace : place ops (size front) = size (traced front) := by rw [hops, place_size]
        have heffect := effect_of_argument hop harg
        have heffect' := effect_of_argument ((opcode_remade f op).trans hop) harg'
        have hsucc : place ops (size front + 1) = place ops (size front) + pre.length + 1 := by
          rw [place_behind hops hreal, hplace, hlength]
        refine .cons hsucc (Depth.standsFor_twin hsucc rfl ?_ ?_ fun d hd => ?_) hlaced
        · exact (heffect'.trans (effect_remade f op)).trans heffect.symm
        · rw [hplace, hlength]
          exact htarget
        · exact leadsFrom_before (by rwa [← heffect]) hpre

end Depth

end Tracing

/-! ### Fast locals and free variables -/

def Assemble.Pools.scope (p : Pools) : List String × List String := (p.varNames, p.freeVars)

def Op.extend (scope : List String × List String) : Op → List String × List String
  | .name o x =>
    match o.pool with
    | .locals => ((intern (· == ·) scope.1 x).2, scope.2)
    | .names => scope
    | .free => (scope.1, (intern (· == ·) scope.2 x).2)
  | _ => scope

theorem scope_of_argument {whole : Stream} {op : Op} (h : argument whole index p op = .ok
    (arg, p')) : p'.scope = Op.extend p.scope op := by
  cases op with
  | name o x =>
    rw [argument, Pools.name_eq] at h
    cases h
    rw [Op.extend]
    cases o.pool <;> rfl
  | jump o l => exact congrArg Pools.scope (argument_jump_eq_ok_iff.1 h).2
  | _ =>
    cases h
    rfl

theorem scope_of_encode {whole ops : Stream} (h : encode whole index p ops = .ok (code, last)) :
    last.scope = ops.foldl Op.extend p.scope := by
  induction h using encode_induction with
  | nil => rfl
  | @marker _ _ op _ _ _ hop _ ih =>
    rw [ih, foldl_cons]
    cases op with
    | line | mark => rfl
    | _ => cases hop
  | real _ harg _ ih => rw [ih, scope_of_argument harg, foldl_cons]

namespace Tracing

theorem scope_woven (f : Code → Code) (ops : Stream) (scope : List String × List String) :
    (woven f true ops).foldl Op.extend scope = ops.foldl Op.extend scope := by
  induction ops generalizing scope with
  | nil => rfl
  | cons op ops ih =>
    have hbefore : (before (receiver true) op).foldl Op.extend scope = scope := by
      unfold before
      split <;> rfl
    have hremade : Op.extend scope (remade f op) = Op.extend scope op := by
      unfold remade
      split <;> rfl
    rw [woven_cons, foldl_append, hbefore, foldl_cons, hremade, ih, foldl_cons]

/-! ### The traced unit -/

/-- The stack may be up to five deeper. -/
def Deepened (c t : Code) : Prop :=
  c.stackSize.toNat ≤ t.stackSize.toNat ∧ t.stackSize.toNat ≤ c.stackSize.toNat + 5

theorem exists_assembled_woven {fileName : String} {header header' : Header} {c : Code}
    (h : Assembled fileName ops header c) (hsize : size (traced ops) < 4294967296)
    (hroom : c.stackSize.toNat ≤ 4294967290) (hargs : header'.args.Nodup)
    (hmax : header'.maxStackSize = none) (f : Code → Code) (nested : Bool) :
    ∃ t, Assembled fileName (woven f nested ops) header' t ∧ Deepened c t := by
  obtain ⟨code, last, hencode, hlaced⟩ := exists_laced f nested (nil_append ops).symm hsize
    h.encode_eq { varNames := header'.args, freeVars := header'.freeVars }
  have hlabels : checkLabels (woven f nested ops) = .ok () := by
    rw [checkLabels_eq_ok_iff, marks_woven, references_woven]
    exact checkLabels_eq_ok_iff.1 h.labels
  obtain ⟨t, ht, -, -, hdeepened⟩ := h.exists_of_laced header' 5 hlabels hargs hencode hlaced rfl
    (by omega) fun max hdeclared => by rw [hmax] at hdeclared; cases hdeclared
  exact ⟨t, ht, hdeepened⟩

end Tracing

end Bytewright
