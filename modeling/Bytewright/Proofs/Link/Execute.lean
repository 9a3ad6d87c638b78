import Bytewright.Proofs.Link.Exec

/-!
# Corresponding instructions

Most instructions need nothing but the same argument; names, constants and jumps have to mean the
same at their places.
-/

namespace Bytewright

open List

variable {K : Sharing} {hidden : ScopeRef → Bindings} {ids ids' : Pairing} {A : Alignment K}
  {v w : Value} {vs ws : List Value} {s t : Store} {ins : Instruction}

namespace Exec

theorem simulates_answer (h : v.Linked K ids w) :
    Simulates A hidden ids (Signal.Linked K) (push v >>= fun _ => pure .next)
      (push w >>= fun _ => pure .next) :=
  (simulates_push h).seq (simulates_pure .next)

theorem simulates_next (hle : ids ≤ ids') (hst : Store.Linked K hidden ids' s t) :
    Simulates A hidden ids (Signal.Linked K) (setStore s >>= fun _ => pure .next)
      (setStore t >>= fun _ => pure .next) :=
  (simulates_setStore hle hst).seq (simulates_pure .next)

/-! ### Instructions without argument -/

def iterateItems (v : Value) : Exec Value := do
  let s ← store
  match s.items? v with
  | some items =>
    let (i, s) := s.newIter items
    setStore s
    return i
  | none => fail (.notIterable v.typeName)

theorem simulates_iterateItems (hv : v.Linked K ids w) :
    Simulates A hidden ids (Value.Linked K) (iterateItems v) (iterateItems w) := by
  refine simulates_store fun s t hst => ?_
  rcases optionRel_cases (hst.items?_rel hv) with ⟨hs, ht⟩ | ⟨_, _, hs, ht, hitems⟩
  · rw [hv.typeName_eq]
    simp only [hs, ht]
    exact simulates_fail (.of_args rfl)
  · simp only [hs, ht]
    obtain ⟨ids', hle, hnew, hst'⟩ := hst.newIter hitems
    exact (simulates_setStore hle hst').seq (simulates_pure hnew)

theorem simulates_iterate (hv : v.Linked K ids w) :
    Simulates A hidden ids (Value.Linked K) (iterate v) (iterate w) := by
  have hother : Simulates A hidden ids (Value.Linked K) _ _ := simulates_iterateItems hv
  cases hv with
  | iterator hr => exact simulates_pure (.iterator hr)
  | _ => exact hother

theorem truncate_linked (h : LinkedAll K ids vs ws) (n : Nat) :
    LinkedAll K ids (truncate n vs) (truncate n ws) := by
  unfold truncate
  rw [h.length_eq]
  exact forall₂_drop _ h

theorem simulates_popBlock {index index' : Nat} (hindex : A.exact → index = index') :
    Simulates A hidden ids (Signal.Linked K) (onBare .popBlock index)
      (onBare .popBlock index') := by
  refine simulates_frame fun f g hfg => ?_
  have hblocks := hfg.blocks
  cases hf : f.blocks with
  | nil =>
    rw [hf] at hblocks
    simp only [forall₂_nil_left_iff.1 hblocks]
    exact simulates_fatal fun hexact => by rw [hindex hexact]
  | cons b outer =>
    rw [hf] at hblocks
    obtain ⟨c, outer', hbc, houter, hg⟩ := forall₂_cons_left_iff.1 hblocks
    simp only [hg]
    refine (simulates_setFrame ?_).seq (simulates_pure .next)
    rw [hbc.level_eq]
    exact { hfg with blocks := houter, stack := truncate_linked hfg.stack c.level }

theorem simulates_storeMap {index index' : Nat} (hindex : A.exact → index = index') :
    Simulates A hidden ids (Signal.Linked K) (onBare .storeMap index)
      (onBare .storeMap index') := by
  refine simulates_pop fun key key' hkey => simulates_pop fun v w hv =>
    simulates_frame fun f g hfg => ?_
  have hfatal : Simulates A hidden ids (Signal.Linked K) (fatal (.noDict index))
      (fatal (.noDict index')) := simulates_fatal fun hexact => by rw [hindex hexact]
  have hstack := hfg.stack
  generalize f.stack = stack at hstack ⊢
  generalize g.stack = stack' at hstack ⊢
  cases hstack with
  | nil => exact hfatal
  | cons htop =>
    cases htop with
    | dict hr =>
      exact simulates_store fun s t hst =>
        simulates_settle (hst.searchSettles_eq _ hkey (hst.dict hr)) <|
          simulates_next le_rfl (hst.setPair hr hkey hv)
    | _ => exact hfatal

theorem simulates_endFinally (index index' : Nat) :
    Simulates A hidden ids (Signal.Linked K) (onBare .endFinally index)
      (onBare .endFinally index') := by
  refine simulates_pop fun type type' htype => simulates_pop fun v w hv =>
    simulates_pop fun tb tb' htb => ?_
  cases htype with
  | exceptionType kind =>
    refine simulates_store fun s t hst =>
      simulates_orFailWith (hst.normalize (.exceptionType kind) hv) fun ids' e e' hle he => ?_
    cases htb with
    | traceback _ entries => exact simulates_raiseAgain he entries
    | _ => exact simulates_raiseAgain he []
  | _ => exact simulates_pure .next

theorem simulates_onBare (op : BareOp) {index index' : Nat} (hindex : A.exact → index = index') :
    Simulates A hidden ids (Signal.Linked K) (onBare op index) (onBare op index') := by
  cases op with
  | popTop => exact simulates_pop fun _ _ _ => simulates_pure .next
  | rotTwo =>
    exact simulates_pop fun b b' hb => simulates_pop fun a a' ha =>
      (simulates_push hb).seq (simulates_answer ha)
  | rotThree =>
    exact simulates_pop fun c c' hc => simulates_pop fun b b' hb => simulates_pop fun a a' ha =>
      (simulates_push hc).seq ((simulates_push ha).seq (simulates_answer hb))
  | dupTop => exact simulates_pop fun a a' ha => (simulates_push ha).seq (simulates_answer ha)
  | dupTopTwo =>
    refine simulates_popMany 2 fun vs ws hvs => ?_
    cases hvs with
    | nil => exact simulates_pure .next
    | cons ha hvs =>
      cases hvs with
      | nil => exact simulates_pure .next
      | cons hb hvs =>
        cases hvs with
        | nil =>
          exact (simulates_push ha).seq ((simulates_push hb).seq
            ((simulates_push ha).seq (simulates_answer hb)))
        | cons => exact simulates_pure .next
  | storeMap => exact simulates_storeMap hindex
  | binarySubscr =>
    exact simulates_pop fun key key' hkey => simulates_pop fun obj obj' hobj =>
      simulates_store fun s t hst => simulates_settle (hst.itemSettles_eq hobj hkey) <|
        simulates_orFail (hst.item hobj hkey) fun _ _ hv => simulates_answer hv
  | storeSubscr =>
    exact simulates_pop fun key key' hkey => simulates_pop fun obj obj' hobj =>
      simulates_pop fun v w hv => simulates_store fun s t hst =>
        simulates_settle (hst.setItemSettles_eq hobj hkey) <|
          simulates_orFail (hst.setItem hobj hkey hv) fun _ _ hst' => simulates_next le_rfl hst'
  | unaryNot => exact simulates_popCondition fun b => simulates_answer (.bool _)
  | unaryNegative =>
    exact simulates_pop fun v w hv => simulates_orFail hv.negate fun _ _ h => simulates_answer h
  | popBlock => exact simulates_popBlock hindex
  | getIter =>
    exact simulates_pop fun v w hv =>
      (simulates_iterate hv).bind fun _ _ _ _ hi => simulates_answer hi
  | endFinally => exact simulates_endFinally index index'
  | returnValue => exact simulates_pop fun v w hv => simulates_pure (.ret hv)

/-! ### Instructions with a count -/

theorem simulates_raiseOperands (n : Nat) :
    Simulates A hidden ids (Signal.Linked K) (raiseOperands n) (raiseOperands n) := by
  match n with
  | 0 =>
    refine simulates_frame fun f g hfg => ?_
    have hhandled := hfg.handled
    generalize f.handled = p at hhandled ⊢
    generalize g.handled = q at hhandled ⊢
    cases hhandled with
    | none => exact simulates_fail (.of_args rfl)
    | @some p q hpq =>
      obtain ⟨e, entries⟩ := p
      obtain ⟨e', entries'⟩ := q
      obtain ⟨he, rfl : entries = entries'⟩ := hpq
      exact simulates_raiseAgain he entries
  | 1 =>
    exact simulates_pop fun type type' htype => simulates_store fun s t hst =>
      simulates_orFailWith (hst.normalize htype .none) fun _ _ _ _ he => simulates_raise he
  | 2 =>
    exact simulates_pop fun v w hv => simulates_pop fun type type' htype =>
      simulates_store fun s t hst =>
        simulates_orFailWith (hst.normalize htype hv) fun _ _ _ _ he => simulates_raise he
  | 3 =>
    refine simulates_pop fun tb tb' htb => simulates_pop fun v w hv =>
      simulates_pop fun type type' htype => simulates_store fun s t hst =>
        simulates_orFailWith (hst.normalize htype hv) fun _ _ _ _ he => ?_
    cases htb with
    | traceback _ entries => exact simulates_raiseAgain he entries
    | none => exact simulates_raise he
    | _ => exact simulates_fail (.of_args rfl)
  | n + 4 => exact simulates_fatal fun _ => rfl

theorem simulates_onCount (op : CountOp) (n : Nat) (hmake : op = .makeFunction → K.functions) :
    Simulates A hidden ids (Signal.Linked K) (onCount op n) (onCount op n) := by
  cases op with
  | buildTuple => exact simulates_popMany n fun vs ws hvs => simulates_answer (.tuple hvs)
  | buildList =>
    refine simulates_popMany n fun vs ws hvs => simulates_store fun s t hst => ?_
    obtain ⟨ids', hle, hnew, hst'⟩ := hst.newList hvs
    exact (simulates_setStore hle hst').seq (simulates_answer hnew)
  | buildMap =>
    refine simulates_store fun s t hst => ?_
    obtain ⟨ids', hle, hnew, hst'⟩ := hst.newDict .nil
    exact (simulates_setStore hle hst').seq (simulates_answer hnew)
  | unpackSequence =>
    refine simulates_pop fun v w hv => simulates_store fun s t hst => ?_
    rcases optionRel_cases (hst.items?_rel hv) with ⟨hs, ht⟩ | ⟨items, items', hs, ht, hitems⟩
    · rw [hv.typeName_eq]
      simp only [hs, ht]
      exact simulates_fail (.of_args rfl)
    · simp only [hs, ht, hitems.length_eq]
      split_ifs
      · refine simulates_frame fun f g hfg => (simulates_setFrame ?_).seq (simulates_pure .next)
        exact hfg.withStack (rel_append hitems hfg.stack)
      · exact simulates_fail (.of_args rfl)
  | makeFunction =>
    refine simulates_pop fun v w hv => simulates_popMany n fun vs ws hvs => ?_
    have hfatal : Simulates A hidden ids (Signal.Linked K) (fatal (.notCode v.typeName))
        (fatal (.notCode w.typeName)) := simulates_fatal fun _ => by rw [hv.typeName_eq]
    cases hv with
    | code _ unit =>
      refine simulates_store fun s t hst => simulates_frame fun f g hfg => ?_
      obtain ⟨ids', hle, hnew, hst'⟩ := hst.newFunction (hmake rfl) unit hvs hfg.globals_shared .nil
      rw [← hfg.globals_eq]
      exact (simulates_setStore hle hst').seq (simulates_answer hnew)
    | _ => exact hfatal
  | raiseVarargs => exact simulates_raiseOperands n

/-! ### Calls -/

theorem keywords_linked : ∀ {vs ws : List Value}, LinkedAll K ids vs ws →
    ExceptLinked K ids (List.Forall₂ (LinkedNamed K ids)) (keywords vs) (keywords ws)
  | _, _, .nil => .ok .nil
  | _, _, .cons hkey .nil => by
    cases hkey <;> exact .ok .nil
  | _, _, .cons hkey (.cons hv hvs) => by
    cases hkey with
    | str key => exact (keywords_linked hvs).bind fun _ _ hrest => .ok (.cons ⟨rfl, hv⟩ hrest)
    | _ => exact .fail rfl

def callAtOnce (f : Value) (args : List Value) (kwargs : Keywords) : Exec Signal := fun m =>
  match Memory.callValue m.frame.globals f args kwargs m.memory with
  | .ok v memory => .ok .next { frame := m.frame.push v, memory }
  | .error e memory => fail e { m with memory }

section

variable (hv : v.Linked K ids w) (hvs : LinkedAll K ids vs ws) {kwargs kwargs' : Keywords}
  (hkwargs : List.Forall₂ (LinkedNamed K ids) kwargs kwargs')
include hv hvs hkwargs

theorem simulates_callAtOnce : Simulates A hidden ids (Signal.Linked K)
    (callAtOnce v vs kwargs) (callAtOnce w ws kwargs') := by
  intro m n hmn
  have hcall := hmn.memory.callValue hmn.frame.globals_shared hv hvs hkwargs
  unfold callAtOnce
  rw [← hmn.frame.globals_eq]
  generalize Memory.callValue _ v vs kwargs _ = p at hcall ⊢
  generalize Memory.callValue _ w ws kwargs' _ = q at hcall ⊢
  cases hcall with
  | ok hle hanswer hmemory =>
    have hframe := hmn.frame.mono hle
    exact .ok hle .next ⟨hframe.withStack (.cons hanswer hframe.stack), hmemory⟩
  | @error _ _ _ memory memory' hle hfailure hmemory =>
    have hmoments : Moment.Linked A hidden _ ⟨m.frame, memory⟩ ⟨n.frame, memory'⟩ :=
      ⟨hmn.frame.mono hle, hmemory⟩
    exact (simulates_fail hfailure _ _ hmoments).of_le hle

theorem simulates_callWith :
    Simulates A hidden ids (Signal.Linked K) (callWith v vs kwargs) (callWith w ws kwargs') := by
  have hother : Simulates A hidden ids (Signal.Linked K) _ _ :=
    simulates_callAtOnce hv hvs hkwargs
  cases hv with
  | @function i j unit _ _ _ _ _ hfunctions hij hr hdefaults hclosure =>
    have hfg : (Value.function ⟨i, unit, _, _, _⟩).Linked K ids (.function ⟨j, unit, _, _, _⟩) :=
      .function hfunctions hij hr hdefaults hclosure
    refine simulates_store fun s t hst => ?_
    rcases FunctionOf.bind_linked hst hfg.alike hvs hkwargs with
      ⟨p, q, hs, ht, ids', hle, hframe, hst'⟩ | ⟨e, e', hs, ht, he⟩ | ⟨cause, hs, ht⟩
    · simp only [hs, ht]
      exact (simulates_setStore hle hst').seq (simulates_pure (.call hframe))
    · simp only [hs, ht]
      exact simulates_fail he
    · simp only [hs, ht]
      exact simulates_fatal fun _ => rfl
  | _ => exact hother

end

def callSpread (arg : UInt32) (spread : List Value) : Exec Signal := do
  let (positional, named) := splitArgSpec arg
  let kwargs ← orFail (keywords (← popMany (2 * named.toNat)))
  let args ← popMany positional.toNat
  let f ← pop
  callWith f (args ++ spread) kwargs

theorem simulates_callSpread (arg : UInt32) {spread spread' : List Value}
    (hspread : LinkedAll K ids spread spread') :
    Simulates A hidden ids (Signal.Linked K) (callSpread arg spread) (callSpread arg spread') :=
  simulates_popMany _ fun _ _ hks => simulates_orFail (keywords_linked hks)
    fun _ _ hkwargs => simulates_popMany _ fun _ _ hvs => simulates_pop
      fun _ _ hv => simulates_callWith hv (rel_append hvs hspread) hkwargs

theorem simulates_onCall (op : CallOp) (arg : UInt32) :
    Simulates A hidden ids (Signal.Linked K) (onCall op arg) (onCall op arg) := by
  cases op with
  | callFunction => exact simulates_callSpread arg .nil
  | callFunctionVar =>
    have hspread : Simulates A hidden ids (fun ids' vs ws => ids' = ids ∧ LinkedAll K ids vs ws)
        (popSpread .callFunctionVar) (popSpread .callFunctionVar) := by
      refine simulates_pop fun v w hv => simulates_store fun s t hst => ?_
      rcases optionRel_cases (hst.items?_rel hv) with ⟨hs, ht⟩ | ⟨items, items', hs, ht, hitems⟩
      · rw [hv.typeName_eq]
        simp only [hs, ht]
        exact simulates_fail (.of_args rfl)
      · simp only [hs, ht]
        exact simulates_pure ⟨rfl, hitems⟩
    refine hspread.bind ?_
    rintro _ vs ws - ⟨rfl, hvs⟩
    exact simulates_callSpread arg hvs

end Exec

/-! ### Names -/

def Alignment.Opens (A : Alignment K) (op : NameOp) (i j : Nat) : Prop :=
  ∀ {ids : Pairing} {f g : Frame}, A.base ids f g →
    match op with
    | .loadFast => Option.Rel (Option.Rel (Value.Linked K ids)) f.fast[i]? g.fast[j]?
    | .storeFast => ∀ v w, v.Linked K ids w →
      A.base ids { f with fast := f.fast.set i (some v) } { g with fast := g.fast.set j (some w) }
    | .deleteFast => Option.Rel (Option.Rel (Value.Linked K ids)) f.fast[i]? g.fast[j]? ∧
      A.base ids { f with fast := f.fast.set i none } { g with fast := g.fast.set j none }
    | .loadName | .storeName | .deleteName => f.names = g.names ∧ K.scopes f.names
    | .loadDeref => Option.Rel (Value.Linked K ids) f.closure[i]? g.closure[j]?
    | _ => True

namespace Exec

variable {index index' : Nat} {target target' : Option Nat} {r : ScopeRef}

theorem lookupGlobal_linked (hst : Store.Linked K hidden ids s t) (hr : K.scopes r) (x : String) :
    ExceptLinked K ids (Value.Linked K ids) (lookupGlobal s r x) (lookupGlobal t r x) := by
  unfold lookupGlobal
  rcases optionRel_cases (LinkedNamed.get? (hst.scope hr) x) with ⟨hs, ht⟩ | ⟨_, _, hs, ht, hv⟩
  · simp only [hs, ht, Option.none_or]
    unfold builtin?
    split
    · next b hb =>
      split at hb
      · cases hb
        exact .ok (.builtin _)
      · split_ifs at hb
        cases hb
        exact .ok (.exceptionType x)
    · exact .fail rfl
  · simp only [hs, ht, Option.some_or]
    exact .ok hv

theorem simulates_pushGlobal (hst : Store.Linked K hidden ids s t) {f g : Frame}
    (hfg : f.Aligned A ids g) (x : String) :
    Simulates A hidden ids (fun _ (_ _ : Unit) => True)
      (orFail (lookupGlobal s f.globals x) >>= fun v => push v)
      (orFail (lookupGlobal t g.globals x) >>= fun v => push v) := by
  rw [← hfg.globals_eq]
  exact simulates_orFail (lookupGlobal_linked hst hfg.globals_shared x) fun _ _ hv =>
    (simulates_push hv).weaken

theorem simulates_deleteFrom (hr : K.scopes r) (x : String) :
    Simulates A hidden ids (fun _ (_ _ : Unit) => True) (deleteFrom r x) (deleteFrom r x) := by
  refine simulates_store fun s t hst => ?_
  rcases optionRel_cases (LinkedNamed.get? (hst.scope hr) x) with ⟨hs, ht⟩ | ⟨_, _, hs, ht, -⟩
  · simp only [hs, ht]
    exact simulates_fail (.of_args rfl)
  · simp only [hs, ht]
    exact (simulates_setStore le_rfl (hst.setScope hr (LinkedNamed.erase (hst.scope hr) x))).weaken

theorem simulates_onName {op : NameOp} {i j : Nat} (hopens : A.Opens op i j) (x : String) :
    Simulates A hidden ids (fun _ (_ _ : Unit) => True) (onName op i x) (onName op j x) := by
  refine simulates_frame fun f g hfg => ?_
  have hplace := hopens hfg.base
  cases op with
  | loadFast =>
    replace hplace : Option.Rel (Option.Rel (Value.Linked K ids)) f.fast[i]? g.fast[j]? := hplace
    generalize f.fast[i]? = a at hplace ⊢
    generalize g.fast[j]? = b at hplace ⊢
    cases hplace with
    | none => exact simulates_fail (.of_args rfl)
    | some hab =>
      cases hab with
      | none => exact simulates_fail (.of_args rfl)
      | some hv => exact (simulates_push hv).weaken
  | storeFast =>
    refine simulates_pop fun v w hv => simulates_frame fun f g hfg => (simulates_setFrame ?_).weaken
    exact { hfg with base := hopens hfg.base v w hv }
  | deleteFast =>
    obtain ⟨hslot, hbase⟩ : Option.Rel (Option.Rel (Value.Linked K ids)) f.fast[i]? g.fast[j]? ∧
      A.base ids { f.bare with fast := f.fast.set i none }
        { g.bare with fast := g.fast.set j none } := hplace
    generalize hf : f.fast[i]? = a at hslot ⊢
    generalize hg : g.fast[j]? = b at hslot ⊢
    cases hslot with
    | none => exact simulates_fail (.of_args rfl)
    | some hab =>
      cases hab with
      | none => exact simulates_fail (.of_args rfl)
      | some =>
        refine (simulates_setFrame ?_).weaken
        exact { hfg with base := hbase }
  | loadName =>
    obtain ⟨hnames, hshared⟩ : f.names = g.names ∧ K.scopes f.names := hplace
    refine simulates_store fun s t hst => ?_
    rcases optionRel_cases (LinkedNamed.get? (hst.scope hshared) x) with
      ⟨hs, ht⟩ | ⟨_, _, hs, ht, hv⟩
    · rw [hnames] at ht
      simp only [hs, ht]
      exact simulates_pushGlobal hst hfg x
    · rw [hnames] at ht
      simp only [hs, ht]
      exact (simulates_push hv).weaken
  | storeName =>
    obtain ⟨hnames, hshared⟩ : f.names = g.names ∧ K.scopes f.names := hplace
    refine simulates_pop fun v w hv => simulates_store fun s t hst => ?_
    rw [← hnames]
    exact (simulates_setStore le_rfl (hst.bindName hshared x hv)).weaken
  | deleteName =>
    obtain ⟨hnames, hshared⟩ : f.names = g.names ∧ K.scopes f.names := hplace
    rw [← hnames]
    exact simulates_deleteFrom hshared x
  | loadGlobal => exact simulates_store fun s t hst => simulates_pushGlobal hst hfg x
  | storeGlobal =>
    refine simulates_pop fun v w hv => simulates_store fun s t hst => ?_
    rw [← hfg.globals_eq]
    exact (simulates_setStore le_rfl (hst.bindName hfg.globals_shared x hv)).weaken
  | deleteGlobal =>
    rw [← hfg.globals_eq]
    exact simulates_deleteFrom hfg.globals_shared x
  | loadDeref =>
    replace hplace : Option.Rel (Value.Linked K ids) f.closure[i]? g.closure[j]? := hplace
    generalize f.closure[i]? = a at hplace ⊢
    generalize g.closure[j]? = b at hplace ⊢
    cases hplace with
    | none => exact simulates_fail (.of_args rfl)
    | some hv => exact (simulates_push hv).weaken
  | loadAttr =>
    exact simulates_pop fun obj obj' hobj => simulates_store fun s t hst =>
      simulates_orFailWith (hst.attr hobj x) fun _ _ _ _ hv => (simulates_push hv).weaken
  | storeAttr =>
    exact simulates_pop fun obj obj' hobj => simulates_pop fun v w hv =>
      simulates_store fun s t hst => simulates_orFail (hst.setAttr hobj x hv) fun _ _ hst' =>
        (simulates_setStore le_rfl hst').weaken

/-! ### Jumps and blocks -/

section Jump

variable (hindex : A.exact → index = index') (htarget : Option.Rel A.target target target')
include hindex htarget

theorem simulates_jumpTo :
    Simulates A hidden ids (fun _ (_ _ : Unit) => True) (jumpTo index target)
      (jumpTo index' target') := by
  have hfatal : Simulates A hidden ids (fun _ (_ _ : Unit) => True) (fatal (.badJump index))
      (fatal (.badJump index')) := simulates_fatal fun hexact => by rw [hindex hexact]
  refine simulates_frame fun f g hfg => ?_
  cases htarget with
  | none => exact hfatal
  | @some i j hij =>
    have hreach : i ≤ f.code.code.length ↔ j ≤ g.code.code.length :=
      A.reach (f := f.bare) (g := g.bare) hij hfg.base
    by_cases hle : i ≤ f.code.code.length
    · simp only [if_pos hle, if_pos (hreach.1 hle)]
      refine (simulates_setFrame ?_).weaken
      exact { hfg with base := A.jump hij hfg.base }
    · simp only [if_neg hle, if_neg (mt hreach.2 hle)]
      exact hfatal

theorem simulates_enterBlock (kind : BlockKind) :
    Simulates A hidden ids (fun _ (_ _ : Unit) => True) (enterBlock kind index target)
      (enterBlock kind index' target') := by
  refine simulates_frame fun f g hfg => ?_
  cases htarget with
  | none => exact simulates_fatal fun hexact => by rw [hindex hexact]
  | some hij =>
    refine (simulates_setFrame ?_).weaken
    exact { hfg with blocks := .cons ⟨rfl, hfg.stack.length_eq, hij⟩ hfg.blocks }

theorem simulates_forIter :
    Simulates A hidden ids (fun _ (_ _ : Unit) => True) (onJump .forIter index target)
      (onJump .forIter index' target') := by
  have hfatal : Simulates A hidden ids (fun _ (_ _ : Unit) => True) (fatal (.noIterator index))
      (fatal (.noIterator index')) := simulates_fatal fun hexact => by rw [hindex hexact]
  refine simulates_frame fun f g hfg => ?_
  have hstack := hfg.stack
  generalize f.stack = stack at hstack ⊢
  generalize g.stack = stack' at hstack ⊢
  cases hstack with
  | nil => exact hfatal
  | cons htop hstack =>
    cases htop with
    | @iterator r hr =>
      refine simulates_store fun s t hst => ?_
      have hitems := hst.iter hr
      generalize s.iter r = items at hitems ⊢
      generalize t.iter r = items' at hitems ⊢
      cases hitems with
      | nil =>
        exact (simulates_setFrame (hfg.withStack hstack)).seq (simulates_jumpTo hindex htarget)
      | cons hv hrest =>
        exact (simulates_setStore le_rfl (hst.setIter r hrest)).seq (simulates_push hv).weaken
    | _ => exact hfatal

theorem simulates_onJump (op : JumpOp) :
    Simulates A hidden ids (fun _ (_ _ : Unit) => True) (onJump op index target)
      (onJump op index' target') := by
  cases op with
  | jumpForward | jumpAbsolute => exact simulates_jumpTo hindex htarget
  | popJumpIfFalse =>
    refine simulates_popCondition fun b => ?_
    cases b with
    | true => exact simulates_pure trivial
    | false => exact simulates_jumpTo hindex htarget
  | popJumpIfTrue =>
    refine simulates_popCondition fun b => ?_
    cases b with
    | true => exact simulates_jumpTo hindex htarget
    | false => exact simulates_pure trivial
  | setupExcept => exact simulates_enterBlock hindex htarget .except
  | setupLoop => exact simulates_enterBlock hindex htarget .loop
  | forIter => exact simulates_forIter hindex htarget

end Jump

end Exec

/-! ### All instructions -/

def SameEntry {α : Type} (A : Alignment K) (ins ins' : Instruction) (pool pool' : List α) : Prop :=
  pool[ins.arg.toNat]? = pool'[ins'.arg.toNat]? ∧
    (A.exact → pool[ins.arg.toNat]? = none → ins.arg = ins'.arg)

/-- The instructions mean the same at their places. -/
structure Alignment.Matches (A : Alignment K) (ins ins' : Instruction) (index index' : Nat) :
    Prop where
  opcode_eq : ins.opcode = ins'.opcode
  index_eq : A.exact → index = index'
  means : match ins.opcode with
    | .loadConst => ∀ {ids f g}, A.base ids f g →
      SameEntry A ins ins' f.code.consts g.code.consts
    | .name op =>
      (∀ {ids f g}, A.base ids f g →
        SameEntry A ins ins' (f.code.pool op.pool) (g.code.pool op.pool)) ∧
      A.Opens op ins.arg.toNat ins'.arg.toNat
    | .jump _ => Option.Rel A.target (ins.target index) (ins'.target index')
    | .count .makeFunction => ins.arg = ins'.arg ∧ K.functions
    | _ => ins.arg = ins'.arg

theorem Exec.simulates_execute {ins' : Instruction} {index index' : Nat}
    (h : A.Matches ins ins' index index') :
    Simulates A hidden ids (Signal.Linked K) (execute ins index) (execute ins' index') := by
  obtain ⟨op, arg⟩ := ins
  obtain ⟨op', arg'⟩ := ins'
  obtain ⟨hop, hindex, hmeans⟩ := h
  cases hop
  cases op with
  | bare op =>
    cases hmeans
    exact simulates_onBare op hindex
  | loadConst =>
    refine simulates_frame fun f g hfg => ?_
    obtain ⟨hconst, harg⟩ : f.code.consts[arg.toNat]? = g.code.consts[arg'.toNat]? ∧
        (A.exact → f.code.consts[arg.toNat]? = none → arg = arg') :=
      hmeans (f := f.bare) (g := g.bare) hfg.base
    dsimp only
    rw [hconst] at harg ⊢
    cases hc : g.code.consts[arg'.toNat]? with
    | none => exact simulates_fatal fun hexact => by rw [harg hexact hc]
    | some c =>
      refine simulates_store fun s t hst => ?_
      obtain ⟨ids', hle, hv, hst'⟩ := hst.ofConst c
      exact (simulates_setStore hle hst').seq (simulates_answer hv)
  | name op =>
    obtain ⟨hname, hopens⟩ := hmeans
    refine simulates_frame fun f g hfg => ?_
    obtain ⟨hname, harg⟩ : (f.code.pool op.pool)[arg.toNat]? = (g.code.pool op.pool)[arg'.toNat]? ∧
        (A.exact → (f.code.pool op.pool)[arg.toNat]? = none → arg = arg') :=
      hname (f := f.bare) (g := g.bare) hfg.base
    dsimp only
    rw [hname] at harg ⊢
    cases hx : (g.code.pool op.pool)[arg'.toNat]? with
    | none => exact simulates_fatal fun hexact => by rw [harg hexact hx]
    | some x => exact (simulates_onName hopens x).bind fun _ _ _ _ _ => simulates_pure .next
  | count op =>
    have heq : arg = arg' := by
      cases op with
      | makeFunction => exact hmeans.1
      | _ => exact hmeans
    cases heq
    refine simulates_onCount op _ fun hop => ?_
    subst hop
    exact hmeans.2
  | binaryOp =>
    cases hmeans
    show Simulates A hidden ids (Signal.Linked K) (execute _ _) (execute _ _)
    unfold execute
    dsimp only
    cases ArithOp.ofIndex? arg.toNat with
    | none => exact simulates_fatal fun _ => rfl
    | some op =>
      exact simulates_pop fun b b' hb => simulates_pop fun a a' ha => simulates_store
        fun s t hst => simulates_orFailWith (hst.arith op ha hb) fun _ _ _ _ hv =>
          simulates_answer hv
  | compareOp =>
    cases hmeans
    unfold execute
    dsimp only
    cases CompareOp.ofIndex? arg.toNat with
    | none => exact simulates_fatal fun _ => rfl
    | some op =>
      refine simulates_pop fun b b' hb => simulates_pop fun a a' ha => simulates_store
        fun s t hst => simulates_settle (hst.compareSettles_eq op ha hb) <|
          simulates_orFail (hst.compare op ha hb) fun x _ hx => ?_
      subst hx
      exact simulates_answer (.bool x)
  | call op =>
    cases hmeans
    exact simulates_onCall op arg
  | jump op =>
    exact (simulates_onJump hindex hmeans op).bind fun _ _ _ _ _ => simulates_pure .next

theorem Alignment.lockstep_matches (index : Nat)
    (hmake : ins.opcode = .count .makeFunction → K.functions) :
    (lockstep K).Matches ins ins index index := by
  refine ⟨rfl, fun _ => rfl, ?_⟩
  obtain ⟨op, arg⟩ := ins
  cases op with
  | loadConst =>
    intro ids f g h
    rw [h.code_eq]
    exact ⟨rfl, fun _ _ => rfl⟩
  | name op =>
    constructor
    · intro ids f g h
      rw [h.code_eq]
      exact ⟨rfl, fun _ _ => rfl⟩
    · intro ids f g h
      cases op with
      | loadFast => exact getElem?_rel h.fast _
      | storeFast => exact fun v w hv => { h with fast := set_rel h.fast _ (.some hv) }
      | deleteFast =>
        exact ⟨getElem?_rel h.fast _, { h with fast := set_rel h.fast _ .none }⟩
      | loadName | storeName | deleteName => exact ⟨h.names_eq, h.names_shared⟩
      | loadDeref => exact getElem?_rel h.closure _
      | _ => trivial
  | jump op => exact optionRel_refl _
  | count op =>
    cases op with
    | makeFunction => exact ⟨rfl, hmake rfl⟩
    | _ => rfl
  | _ => rfl

end Bytewright
