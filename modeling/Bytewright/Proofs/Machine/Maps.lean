import Bytewright.Proofs.Machine.Binding
import Bytewright.Proofs.Machine.Built

/-!
# What instructions do to maps

Only a call does something else than edit a map: when it enters a function that collects the surplus
of keyword arguments, it makes a map of them.
-/

namespace Bytewright

variable {s s' : Store} {args : List Value} {kwargs : Keywords} {v : Value}

namespace Exec

variable {α β : Type}

/-- The maps of the store stay as they are. -/
def LeavesMaps (x : Exec α) : Prop :=
  ∀ m, Ends x m (fun _ m' => m'.memory.store.dicts = m.memory.store.dicts)
    (fun _ m' => m'.memory.store.dicts = m.memory.store.dicts)

/-- At most one map of the store is added or changed. -/
def EditsMaps (x : Exec α) : Prop :=
  ∀ m, Ends x m (fun _ m' => MapEdit m.memory.store.dicts m'.memory.store.dicts)
    (fun _ m' => MapEdit m.memory.store.dicts m'.memory.store.dicts)

/-! ### Operations -/

theorem LeavesMaps.edits {x : Exec α} (hx : x.LeavesMaps) : x.EditsMaps := fun m =>
  (hx m).mono (fun _ _ => .of_eq) (fun _ _ => .of_eq)

theorem LeavesMaps.bind {x : Exec β} {g : β → Exec α} (hx : x.LeavesMaps)
    (hg : ∀ b, (g b).LeavesMaps) : (x >>= g).LeavesMaps := fun m => (hx m).bind fun b m' hm =>
  (hg b m').mono (fun _ _ hm' => hm'.trans hm) (fun _ _ hm' => hm'.trans hm)

theorem LeavesMaps.bind_edits {x : Exec β} {g : β → Exec α} (hx : x.LeavesMaps)
    (hg : ∀ b, (g b).EditsMaps) : (x >>= g).EditsMaps := by
  intro m
  rw [ends_bind]
  refine (hx m).mono (fun b m' hm => ?_) (fun _ _ hm => .of_eq hm)
  exact hm ▸ hg b m'

theorem LeavesMaps.store_bind {g : Store → Exec α}
    (hg : ∀ m : Moment, Ends (g m.memory.store) m
      (fun _ m' => m'.memory.store.dicts = m.memory.store.dicts)
      (fun _ m' => m'.memory.store.dicts = m.memory.store.dicts)) : (store >>= g).LeavesMaps := by
  intro m
  rw [ends_bind, ends_store]
  exact hg m

theorem leavesMaps_pure (a : α) : LeavesMaps (pure a : Exec α) := fun _ => rfl

theorem leavesMaps_frame : LeavesMaps frame := fun _ => rfl

theorem leavesMaps_setFrame (f : Frame) : LeavesMaps (setFrame f) := fun _ => rfl

theorem leavesMaps_fatal (cause : Fatal) : LeavesMaps (fatal cause : Exec α) := fun _ => rfl

theorem leavesMaps_pop : LeavesMaps pop := by
  intro m
  cases hs : m.frame.stack <;> simp only [Ends, pop, hs]

theorem leavesMaps_popMany (n : Nat) : LeavesMaps (popMany n) := by
  intro m
  by_cases h : m.frame.stack.length < n <;> simp only [Ends, popMany, h, if_true, if_false]

theorem dicts_of_callBuiltin {globals : ScopeRef} {b : Builtin}
    (h : s.callBuiltin globals b args kwargs = .ok (v, s')) : s'.dicts = s.dicts := by
  unfold Store.callBuiltin at h
  split at h
  · cases h
  cases b with
  | globals | nameSpace =>
    dsimp only at h
    split_ifs at h
    cases h
    rfl
  | len =>
    dsimp only at h
    split at h
    · split at h <;> cases h
      rfl
    · cases h
  | range =>
    cases hbounds : rangeBounds args with
    | error e =>
      rw [hbounds] at h
      cases h
    | ok bounds =>
      simp only [hbounds, Bind.bind, Except.bind] at h
      split_ifs at h
      cases h
      rfl

theorem mapEdit_of_perform {answer : HookAnswer} {operands : List Operand}
    (h : s.perform answer operands = .ok s') : MapEdit s.dicts s'.dicts := by
  unfold Store.perform at h
  split at h
  · cases h
    exact .leave
  · cases h
  · cases h
  · exact .of_eq (dicts_of_setAttr h)
  · split_ifs at h
    exact mapEdit_of_setItem h
  · cases h

theorem mapEdit_callValue (globals : ScopeRef) (f : Value) (args : List Value)
    (kwargs : Keywords) (m : Memory) :
    match Memory.callValue globals f args kwargs m with
    | .ok _ m' | .error _ m' => MapEdit m.store.dicts m'.store.dicts := by
  unfold Memory.callValue
  cases f with
  | builtin b =>
    dsimp only
    cases hbuiltin : m.store.callBuiltin globals b args kwargs with
    | ok r => exact .of_eq (dicts_of_callBuiltin hbuiltin)
    | error e => exact .leave
  | method i h call =>
    dsimp only
    split_ifs
    · unfold Memory.callMethod
      cases call.operands h.kind args with
      | error e => exact .leave
      | ok operands =>
        dsimp only
        cases hanswer : m.store.perform (h.answer call) operands with
        | ok s' => exact mapEdit_of_perform hanswer
        | error e =>
          show MapEdit _ (m.reported h call operands).store.dicts
          rw [Memory.reported, apply_ite Memory.store, ite_self]
          exact .leave
    · exact .leave
  | exceptionType kind =>
    dsimp only
    split_ifs <;> exact .leave
  | _ => exact .leave

/-! ### Instructions -/

theorem Built.leavesMaps {q : α → Prop} {x : Exec α} (h : Built q x) : x.LeavesMaps := by
  induction h with
  | pure _ => exact leavesMaps_pure _
  | bind _ _ hx hg => exact hx.bind hg
  | pop => exact leavesMaps_pop
  | popMany n => exact leavesMaps_popMany n
  | read _ _ hg => exact leavesMaps_frame.bind hg
  | update hg => exact .store_bind fun _ =>
      ends_orFailWith (fun a s' h => hg _ a s' h) fun _ _ => rfl
  | push _ | pushAll _ | setFast _ _ | store | fail _ | raise _ | raiseAgain _ _ | fatal _ =>
    exact fun _ => rfl

theorem leavesMaps_jumpTo (index : Nat) (target : Option Nat) :
    LeavesMaps (jumpTo index target) := by
  refine leavesMaps_frame.bind fun f => ?_
  split
  · split_ifs
    · exact leavesMaps_setFrame _
    · exact leavesMaps_fatal _
  · exact leavesMaps_fatal _

theorem leavesMaps_forIter (index : Nat) (target : Option Nat) :
    LeavesMaps (onJump .forIter index target) := by
  refine leavesMaps_frame.bind fun f => ?_
  split
  · refine .store_bind fun m => ?_
    split
    · exact rfl
    · exact ((leavesMaps_setFrame _).bind fun _ => leavesMaps_jumpTo index target) m
  · exact leavesMaps_fatal _

theorem leavesMaps_enterBlock (kind : BlockKind) (index : Nat) (target : Option Nat) :
    LeavesMaps (enterBlock kind index target) := by
  refine leavesMaps_frame.bind fun f => ?_
  split
  · exact leavesMaps_setFrame _
  · exact leavesMaps_fatal _

theorem leavesMaps_popBlock (index : Nat) : LeavesMaps (onBare .popBlock index) := by
  refine leavesMaps_frame.bind fun f => ?_
  split
  · exact (leavesMaps_setFrame _).bind fun _ => leavesMaps_pure _
  · exact leavesMaps_fatal _

theorem editsMaps_storeMap (index : Nat) : EditsMaps (onBare .storeMap index) := by
  refine leavesMaps_pop.bind_edits fun key => leavesMaps_pop.bind_edits fun v =>
    leavesMaps_frame.bind_edits fun f => ?_
  split
  · next r _ _ =>
    intro m
    rw [ends_bind, ends_store, ends_bind]
    exact ends_settle _ (.insert m.memory.store r.index key v) .leave
  · exact (leavesMaps_fatal _).edits

theorem Moving.editsMaps {q : α → Prop} {x : Exec α} (h : Moving q x) : x.EditsMaps := by
  induction h with
  | built hx => exact hx.leavesMaps.edits
  | bind hx _ hg => exact hx.leavesMaps.bind_edits hg
  | answer _ _ hx =>
    intro m
    rw [ends_bind]
    exact hx m
  | jumpTo index target => exact (leavesMaps_jumpTo index target).edits
  | forIter index target => exact (leavesMaps_forIter index target).edits
  | settle b _ hx =>
    exact LeavesMaps.bind_edits (.store_bind fun _ => ends_settle _ rfl rfl) fun _ => hx
  | storeMap index => exact editsMaps_storeMap index
  | edit hg hk =>
    intro m
    rw [ends_bind, ends_bind, ends_store]
    refine ends_orFailWith (fun b s' h => ?_) fun _ _ => .leave
    exact ((hk b).leavesMaps _).mono (fun _ _ hm => hm ▸ hg _ b s' h)
      (fun _ _ hm => hm ▸ hg _ b s' h)

end Exec

open Exec in
theorem execute_editsMaps {ins : Instruction} (hins : ∀ op, ins.opcode ≠ .call op) (index : Nat) :
    (execute ins index).EditsMaps := by
  by_cases hblock : ins.opcode.movesBlock = true
  · obtain h | ⟨kind, target, h⟩ := execute_of_movesBlock hblock index
    · exact h ▸ (leavesMaps_popBlock index).edits
    · exact h ▸ ((leavesMaps_enterBlock kind index target).bind fun _ => leavesMaps_pure _).edits
  · exact (moving_execute index (Bool.not_eq_true _ ▸ hblock) hins).editsMaps

/-! ### Calls -/

namespace Exec

theorem editsMaps_callWith (hv : ∀ g, v ≠ .function g) (args : List Value)
    (kwargs : Keywords) : EditsMaps (callWith v args kwargs) := by
  intro m
  rw [Ends, callWith_of_ne_function hv]
  have hcall := mapEdit_callValue m.frame.globals v args kwargs m.memory
  cases hresult : Memory.callValue m.frame.globals v args kwargs m.memory with
  | ok w memory | error e memory =>
    rw [hresult] at hcall
    exact hcall

end Exec

theorem FunctionOf.dicts_of_bind {g : Function} {f : Frame} (h : g.bind args kwargs s = .ok
    (f, s')) :
    s'.dicts = if g.code.takesExtra then
      s.dicts.push ((g.code.surplus kwargs).map fun p => (.str p.1, p.2)) else s.dicts := by
  unfold FunctionOf.bind at h
  dsimp only at h
  split_ifs at h
  cases hb : bindArguments g.code g.defaults args kwargs with
  | error e =>
    rw [hb] at h
    cases h
  | ok b =>
    rw [hb] at h
    have hs' : s' = (g.frame b s).2 := congrArg Prod.snd (Except.ok.inj h).symm
    rw [hs', dicts_frame, extra_of_bindArguments hb]

end Bytewright
