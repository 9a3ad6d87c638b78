import Bytewright.Proofs.Link.Shift
import Bytewright.Proofs.Tracing.Watch

/-!
# Traced runs

Where operands are missing, the report ends the run as the instruction does.  Each report takes an
identity, so values correspond up to identities.
-/

namespace Bytewright

open Assemble List OfCode

abbrev Sharing.renamed : Sharing := .whole (fun _ => True) False

namespace Tracing

variable {fileName : String} {ops : Stream} {header : Header} {c t : Code} {tracer : Hook}
  {ids : Pairing} {hidden : ScopeRef → Bindings}

/-! ### Outermost frames -/

theorem Twins.exists_getElem? (h : Twins fileName ops header c t) {n : Nat}
    (hn : n < c.code.length) : ∃ op, (reals ops)[n]? = some op := by
  rw [h.length_plain, ← length_reals] at hn
  exact ⟨_, getElem?_eq_getElem hn⟩

def Twins.shift (h : Twins fileName ops header c t) (tracer : Hook) : Shift False where
  plain := c
  shifted := t
  place := place ops
  limit := c.code.length
  slots := [slot]
  extra := [.hook tracer]
  limit_le := le_rfl
  place_le i _ := h.length_traced ▸ place_le ops i
  place_eq := False.elim
  varNames_eq := h.varNames_eq
  nodup_varNames := h.traced.nodup_varNames
  length_extra := rfl
  name_eq := by rw [h.plain.name_eq, h.traced.name_eq]
  fileName_eq := by rw [h.plain.fileName_eq, h.traced.fileName_eq]
  lineFor_eq i hi := by
    rcases i with _ | n
    · have hpos : 0 < c.code.length := length_pos_iff.2 h.plain.code_ne_nil
      obtain ⟨op, hop⟩ := h.exists_getElem? hpos
      exact (h.lineFor_eq hop (Nat.zero_le _)).symm
    · obtain ⟨op, hop⟩ := h.exists_getElem? hi
      rw [place_succ hop]
      exact (h.lineFor_eq hop le_rfl).symm

theorem Twins.exists_twin (h : Twins fileName ops header c t) (tracer : Hook) {n : Nat} {op : Op}
    (hn : (reals ops)[n]? = some op) {i : Instruction} (hi : c.code[n]? = some i) :
    ∃ i', t.code[place ops n + (report op).length]? = some i' ∧
      (h.shift tracer).Twin n (place ops n + (report op).length) i i' := by
  have hreal : op.isReal = true := (mem_filter.1 (mem_of_getElem? hn)).2
  obtain ⟨opcode, hopcode⟩ := exists_opcode_of_isReal hreal
  obtain ⟨p, p', q, q', arg, arg', hpq, harg, hp', harg', hq', hi₀, hi'⟩ :=
    h.exists_arguments hn hopcode
  rw [hi] at hi₀
  cases hi₀
  refine ⟨_, hi', rfl, ?_⟩
  have hc := h.addressable_plain
  cases op with
  | line | mark => cases hreal
  | const k =>
    cases hopcode
    exact ⟨_, getElem?_of_const harg hp' hc.consts,
      hpq.find?_getD k ▸ getElem?_of_const harg' hq' h.addressable.consts⟩
  | name o x =>
    cases hopcode
    have hname := name_of_argument harg hp' (by rw [CodeOf.get_pools]; exact hc.names o.pool)
    have hname' := name_of_argument harg' hq'
      (by rw [CodeOf.get_pools]; exact h.addressable.names o.pool)
    rw [CodeOf.get_pools] at hname hname'
    refine ⟨x, hname, hname', fun hfree => ?_⟩
    rw [argument, Pools.name_eq, hfree] at harg harg'
    cases harg
    cases harg'
    show (intern (· == ·) q.freeVars x).1 = (intern (· == ·) p.freeVars x).1
    rw [hpq.free]
  | jump o l =>
    cases hopcode
    obtain ⟨target, htarget, hleads⟩ := exists_position?_of_argument (h.plain.size_lt hc) harg
    obtain ⟨target', htarget', hleads'⟩ := exists_position?_of_argument h.size_lt harg'
    rw [position?_traced, htarget] at htarget'
    cases htarget'
    have hbounds := (position?_bounds htarget).2
    refine ⟨target, ?_, hleads, hleads'⟩
    show target ≤ c.code.length
    rw [h.length_plain]
    omega
  | bare | count | arith | compare | call =>
    cases hopcode
    cases harg
    cases harg'
    rfl

/-! ### Reports of linked frames -/

theorem report?_linked {vs ws : List Value} (h : LinkedAll .renamed ids vs ws) (c : Code)
    (i : Instruction) :
    Option.Rel (fun p q => p.1 = q.1 ∧ List.Forall₂ (Operand.Linked .renamed ids) p.2 q.2)
      (i.report? c vs) (i.report? c ws) := by
  obtain ⟨opcode, arg⟩ := i
  cases opcode with
  | name o =>
    cases o with
    | loadAttr =>
      simp only [Instruction.report?]
      cases h with
      | nil => exact .none
      | cons hv =>
        cases c.names[arg.toNat]? with
        | none => exact .none
        | some x => exact .some ⟨rfl, .cons (.value hv) (.cons (.name x) .nil)⟩
    | _ => exact .none
  | call o =>
    cases o with
    | callFunction =>
      simp only [Instruction.report?]
      generalize (splitArgSpec arg).1.toNat + 2 * (splitArgSpec arg).2.toNat = n
      rcases optionRel_cases (getElem?_rel h n) with ⟨hv, hw⟩ | ⟨v, w, hv, hw, hvw⟩
      · rw [hv, hw]
        exact .none
      · rw [hv, hw]
        have hargs := rel_reverse (forall₂_take n h)
        exact .some ⟨rfl, .cons (.value hvw) (.cons (.arguments hargs) (.cons (.argSpec arg) .nil))⟩
    | callFunctionVar => exact .none
  | bare o =>
    cases o with
    | binarySubscr =>
      cases h with
      | nil => exact .none
      | cons hkey h =>
        cases h with
        | nil => exact .none
        | cons hobj => exact .some ⟨rfl, .cons (.value hobj) (.cons (.value hkey) .nil)⟩
    | getIter | returnValue =>
      cases h with
      | nil => exact .none
      | cons hv => exact .some ⟨rfl, .cons (.value hv) .nil⟩
    | _ => exact .none
  | _ => exact .none

theorem reported_linked {m n : Memory} (h : m.Linked .renamed hidden ids n) (tracer : Hook)
    (call : HookCall) {os os' : List Operand}
    (hos : List.Forall₂ (Operand.Linked .renamed ids) os os') :
    Memory.Linked .renamed hidden ids (m.reported tracer call os)
      (n.aged.reported tracer call os') := by
  have hstore : Store.Linked .renamed hidden ids m.store n.aged.store := h.store.fresh_right id
  unfold Memory.reported
  split_ifs
  · exact ⟨hstore, fun hlogs => .cons (.inr ⟨rfl, hidden, ids, le_rfl, hos, hstore⟩) (h.log hlogs)⟩
  · exact ⟨hstore, h.log⟩

/-! ### One instruction -/

/-- If the next instruction is a call, its operands are on the stack. -/
def Supplied (f : Frame) : Prop :=
  ∀ i, f.code.code[f.ip]? = some i → i.opcode = .call .callFunction →
    (splitArgSpec i.arg).1.toNat + 2 * (splitArgSpec i.arg).2.toNat < f.stack.length

section Bottom

variable {f g : Frame} {m m' : Memory} {op : Op} {i i' : Instruction}

variable (h : Twins fileName ops header c t)
include h

theorem Twins.proceed_fails
    (hfg : f.Aligned (h.shift tracer).alignment ids g) (hm : m.Linked .renamed hidden ids m')
    (hi : c.code[f.ip]? = some i) (hi' : t.code[place ops f.ip]? = some i')
    (hfails : Fails i f f.stack) (hfails' : Fails i' g g.stack) (steps steps' : Nat) :
    Progress.Linked (h.shift tracer).alignment hidden ids (Run.proceed ⟨f, [], steps, m⟩)
      (Run.proceed ⟨g, [], steps', m'⟩) := by
  have hplain : f.code = c := hfg.base.plain
  have htraced : g.code = t := hfg.base.shifted
  have hip : g.ip = place ops f.ip := hfg.base.ip_eq
  have hname : f.code.name = g.code.name := by
    rw [hplain, htraced, h.plain.name_eq, h.traced.name_eq]
  obtain ⟨cause, last, hcause⟩ := hfails f.ip m
  obtain ⟨cause', last', hcause'⟩ := hfails' g.ip m'
  rw [← hplain] at hi
  rw [← htraced, ← hip] at hi'
  unfold Run.proceed
  simp only [hi, hi', Frame.ahead, hcause, hcause']
  exact .ended le_rfl (.fatal (fun hexact => hexact.elim) (congrArg (fun x => [x]) hname)) hm

theorem Twins.equipped (hfg : f.Aligned (h.shift tracer).alignment ids g) : Equipped tracer g := by
  intro j hj
  have hzero : t.varNames[0]? = some slot := by rw [h.varNames_eq, getElem?_cons_zero]
  have htraced : g.code = t := hfg.base.shifted
  rw [htraced] at hj
  have hlt := (List.getElem?_eq_some_iff.1 hj).1
  have hj0 : j = 0 := (getElem?_inj hlt h.traced.nodup_varNames).1 (hj.trans hzero.symm)
  obtain ⟨rest, hrest : g.fast = some (.hook tracer) :: rest, -⟩ := hfg.base.fast
  rw [hj0, hrest, getElem?_cons_zero]

theorem Twins.exists_proceeds (htracer : Calm tracer)
    (hfg : f.Aligned (h.shift tracer).alignment ids g) (hm : m.Linked .renamed hidden ids m')
    (hsupplied : Supplied f) (steps steps' : Nat) :
    ∃ r, Run.Proceeds ⟨g, [], steps', m'⟩ r ∧ Progress.Linked (h.shift tracer).alignment hidden ids
      (Run.watched tracer ⟨f, [], steps, m⟩).proceed r.proceed := by
  have hplain : f.code = c := hfg.base.plain
  have htraced : g.code = t := hfg.base.shifted
  have hip : g.ip = place ops f.ip := hfg.base.ip_eq
  have hle : f.ip ≤ c.code.length := hfg.base.ip_le
  cases hi : c.code[f.ip]? with
  | none =>
    -- both frames are at their end
    have hend : f.ip = c.code.length := le_antisymm hle (getElem?_eq_none_iff.1 hi)
    have hi' : t.code[g.ip]? = none := by
      rw [hip, hend, h.length_plain, place_end, getElem?_eq_none_iff, h.length_traced]
    have hwatched : Run.watched tracer ⟨f, [], steps, m⟩ = ⟨f, [], steps, m⟩ := by
      simp only [Run.watched, Frame.report?, hplain, hi, Option.bind_none]
    have hname : f.code.name = g.code.name := by
      rw [hplain, htraced, h.plain.name_eq, h.traced.name_eq]
    refine ⟨_, .refl, ?_⟩
    rw [hwatched]
    unfold Run.proceed
    simp only [hplain, htraced, hi, hi']
    exact .ended le_rfl (.fatal (fun hexact => hexact.elim) (congrArg (fun x => [x]) hname)) hm
  | some i =>
    obtain ⟨op, hop, hspells⟩ := h.exists_op hi
    obtain ⟨i', hi', htwin⟩ := h.exists_twin tracer hop hi
    have hnext : f.ip + 1 ≤ c.code.length := (List.getElem?_eq_some_iff.1 hi).1
    have hcarries := h.carries_report hop
    rw [← htraced] at hcarries
    have hreport : f.report? = i.report? c f.stack := by
      rw [Frame.report?, hplain, hi, Option.bind_some]
    rcases optionRel_cases (report?_linked hfg.stack c i) with
      ⟨hf, hg⟩ | ⟨⟨call, os⟩, ⟨call', os'⟩, hf, hg, hcall, hos⟩
    · have hwatched : Run.watched tracer ⟨f, [], steps, m⟩ = ⟨f, [], steps, m⟩ := by
        simp only [Run.watched, hreport, hf]
      rw [hwatched]
      have hcalls (args kwds : UInt8) (heq : op = .call .callFunction args kwds) :
          args.toNat + 2 * kwds.toNat < f.stack.length := by
        have hlt := hsupplied i (hplain ▸ hi)
        rw [hspells.call _ args kwds heq, splitArgSpec_argSpec] at hlt
        refine hlt ?_
        have hopcode := hspells.opcode_eq
        rw [heq] at hopcode
        exact (Option.some.inj hopcode).symm
      rcases eq_nil_or_fails hspells hf hcalls with hnil | ⟨hfails, o, tail, htail, -⟩
      · -- there is no report, so the traced frame is at the twin
        refine ⟨_, .refl, ?_⟩
        have hproceed := (h.shift tracer).proceed_linked hfg hm hi hi' hnext (place_succ hop) htwin
          steps steps' fun hexact => hexact.elim
        rw [hnil, length_nil, Nat.add_zero, ← hip] at hproceed
        exact hproceed
      · rcases eq_nil_or_fails hspells hg (hfg.stack.length_eq ▸ hcalls) with
          hnil | ⟨-, o', tail', htail', hfails'⟩
        · rw [hnil] at htail
          cases htail
        · rw [htail'] at hcarries
          have ho' : o'.isReal = true := isReal_of_mem_report (htail' ▸ mem_cons_self)
          obtain ⟨⟨j, hj, hdenotes⟩, -⟩ := (carries_cons_of_isReal ho').1 hcarries
          exact ⟨_, .refl, h.proceed_fails hfg hm hi (htraced ▸ hj) (hfails f hplain)
            (hfails' g _ _ j hdenotes) steps steps'⟩
    · cases hcall
      have hwatched : Run.watched tracer ⟨f, [], steps, m⟩ =
          ⟨f, [], steps, m.reported tracer call os⟩ := by
        simp only [Run.watched, hreport, hf]
      have hwalks := walks_report (m := m') htracer (h.equipped hfg) hspells hg
      have hproceeds := hwalks.proceeds hcarries (fun _ => isReal_of_mem_report) [] steps'
      rw [← hip] at hproceeds
      refine ⟨_, hproceeds, ?_⟩
      rw [hwatched, hip]
      exact (h.shift tracer).proceed_linked hfg (reported_linked hm tracer call hos) hi hi' hnext
        (place_succ hop) htwin steps _ fun hexact => hexact.elim

end Bottom

/-! ### Runs -/

/-- The watched run and the traced run correspond. -/
structure Pace (h : Twins fileName ops header c t) (tracer : Hook) (ids : Pairing) (w r : Run) :
    Prop where
  linked : w.Linked (h.shift tracer).alignment (fun _ => []) ids r
  plain : w.base = c
  traced : r.base = t

theorem Twins.ne (h : Twins fileName ops header c t) : c ≠ t := by
  intro heq
  have hlength := congrArg length h.varNames_eq
  rw [heq, length_cons] at hlength
  omega

theorem Pace.exists_proceeds {h : Twins fileName ops header c t} {w r : Run}
    (hpace : Pace h tracer ids w r) (htracer : Calm tracer)
    (hsupplied : w.callers = [] → Supplied w.frame) :
    ∃ r', r.Proceeds r' ∧ Progress.Linked (h.shift tracer).alignment (fun _ => []) ids
      (w.watched tracer).proceed r'.proceed := by
  have hbase := hpace.plain
  have hbase' := hpace.traced
  have hall := hpace.linked.frames
  have hlinked := hpace.linked
  obtain ⟨f, fs, steps, m⟩ := w
  obtain ⟨g, gs, steps', m'⟩ := r
  cases hall with
  | bottom hfg => exact h.exists_proceeds htracer hfg hlinked.memory (hsupplied rfl) steps steps'
  | cons hfg hs =>
    by_cases hcallers : fs = []
    · -- the outermost frames have different code
      subst hcallers
      cases hs
      have hcode : f.code = g.code := hfg.base.code_eq
      exact absurd (hbase.symm.trans (hcode.trans hbase')) h.ne
    · rw [Run.watched_of_callers tracer (r := ⟨f, fs, steps, m⟩) hcallers]
      exact ⟨_, .refl, hlinked.proceed hfg hs fun _ _ _ => trivial⟩

structure Trio (h : Twins fileName ops header c t) (tracer : Hook) (ids : Pairing) (r w s : Run) :
    Prop where
  watched : ∃ ids', r.Linked (.lockstep .unlogged) (fun _ => []) ids' w
  pace : Pace h tracer ids w s

theorem Trio.exists_finishes {h : Twins fileName ops header c t} {r w s : Run}
    (htrio : Trio h tracer ids r w s) (htracer : Calm tracer)
    (hsupplied : ∀ r', r.Proceeds r' → r'.callers = [] → Supplied r'.frame) {limits : Limits}
    {fuel : Nat} {o : Outcome} {m : Memory} (hgo : Run.go limits fuel r = some (o, m))
    (hlimit : ¬o.AtLimit) :
    ∃ log, Run.watch tracer fuel w = some (o, { m with log }) ∧
      ∃ ids' o' n, ids ≤ ids' ∧ s.Finishes o' n ∧ o.Linked .renamed False ids' o' ∧
        Memory.Linked .renamed (fun _ => []) ids' { m with log } n := by
  induction fuel generalizing ids r w s with
  | zero => cases hgo
  | succ fuel ih =>
    obtain ⟨idsw, hw⟩ := htrio.watched
    have hframe := hw.lockstep.1
    -- the same operands are on the stack of the watched run
    have hsupplied' : w.callers = [] → Supplied w.frame := by
      intro hnil i hi hop
      have hcallers : r.callers = [] := by
        have hlength := hw.lockstep.2.length_eq
        rw [hnil] at hlength
        exact length_eq_zero_iff.1 hlength
      have hcode : r.frame.code = w.frame.code := hframe.base.code_eq
      have hip : r.frame.ip = w.frame.ip := hframe.base.ip_eq
      rw [← hcode, ← hip] at hi
      rw [← hframe.stack.length_eq]
      exact hsupplied r .refl hcallers i hi hop
    have hplain := hw.watched tracer
    obtain ⟨s', hs', htraced⟩ := htrio.pace.exists_proceeds htracer hsupplied'
    have hbase : (w.watched tracer).base = c := by
      obtain ⟨m', -, heq⟩ := w.watched_eq tracer
      rw [heq]
      exact htrio.pace.plain
    have hbase' : s'.base = t := (Run.base_of_proceeds hs').trans htrio.pace.traced
    rw [Run.go] at hgo
    rw [Run.watch]
    rcases Run.advance_eq_proceed limits r with hproceed | ⟨cause, active, m', hcause, hended⟩
    · rw [hproceed] at hgo
      cases hr : r.proceed with
      | running r₁ =>
        rw [hr] at hgo hplain
        generalize hw₁ : (w.watched tracer).proceed = pw at hplain htraced ⊢
        generalize hs₁ : s'.proceed = ps at htraced
        cases hplain with
        | running hle hlinked =>
          cases htraced with
          | @running ids₁ _ s₁ hle' hlinked' =>
            have htrio₁ : Trio h tracer ids₁ r₁ _ s₁ :=
              ⟨⟨_, hlinked⟩, hlinked', (Run.base_of_proceed hw₁).trans hbase,
                (Run.base_of_proceed hs₁).trans hbase'⟩
            obtain ⟨log, hwatch, ids', o', n, hids, hfinishes, ho, hm⟩ := ih htrio₁
              (fun r' hr' => hsupplied r' (.head hr hr')) hgo
            exact ⟨log, hwatch, ids', o', n, hle'.trans hids, (Run.Finishes.of_proceeds
              (.tail hs' hs₁)).2 hfinishes, ho, hm⟩
      | ended o₁ m₁ =>
        rw [hr] at hgo hplain
        cases hgo
        generalize hw₁ : (w.watched tracer).proceed = pw at hplain htraced ⊢
        generalize hs₁ : s'.proceed = ps at htraced
        cases hplain with
        | @ended _ _ o' _ m' _ ho hm =>
          obtain rfl : o = o' := ho.eq (hm.store.exact trivial).2
          have hm' : { m with log := m'.log } = m' := by
            obtain ⟨store, log⟩ := m
            obtain ⟨store', log'⟩ := m'
            cases hm.store.eq
            rfl
          refine ⟨m'.log, by rw [hm'], ?_⟩
          rw [hm']
          cases htraced with
          | ended hle' ho' hn => exact ⟨_, _, _, hle', ⟨s', hs', hs₁⟩, ho', hn⟩
    · rw [hended] at hgo
      cases hgo
      exact absurd hcause hlimit

end Tracing

end Bytewright
