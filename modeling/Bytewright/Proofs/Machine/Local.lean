import Bytewright.Proofs.Machine.Built

/-!
# What instructions do not look at

However many values lie below what an instruction takes, and whatever blocks are open, it does the
same and leaves them as they are.
-/

namespace Bytewright

open List

def Frame.embed (more : List Value) (blocks : List Block) (f : Frame) : Frame :=
  { f with stack := f.stack ++ more, blocks }

def Moment.embed (more : List Value) (blocks : List Block) (m : Moment) : Moment :=
  { m with frame := m.frame.embed more blocks }

@[simp] theorem Moment.frame_embed (more : List Value) (blocks : List Block) (m : Moment) :
    (m.embed more blocks).frame = m.frame.embed more blocks := rfl

@[simp] theorem Moment.memory_embed (more : List Value) (blocks : List Block) (m : Moment) :
    (m.embed more blocks).memory = m.memory := rfl

namespace Exec

variable {α β : Type} {more : List Value} {blocks : List Block}

inductive Embeds (more : List Value) (blocks : List Block) :
    EStateM.Result Stop Moment α → EStateM.Result Stop Moment α → Prop
  | ok (a : α) (m : Moment) : Embeds more blocks (.ok a m) (.ok a (m.embed more blocks))
  | raise (e : Exception) (entries : List TraceEntry) (again : Bool) (m : Moment) :
      Embeds more blocks (.error (.raise e entries again) m)
        (.error (.raise e entries again) (m.embed more blocks))
  | fatal (cause : Fatal) (m : Moment) (result : EStateM.Result Stop Moment α) :
      Embeds more blocks (.error (.fatal cause) m) result
  | crash (m : Moment) :
      Embeds more blocks (.error .crash m) (.error .crash (m.embed more blocks))

/-- Whatever lies below, and whatever blocks are open, `x` does the same and leaves them as they
are. -/
def Local (x : Exec α) : Prop :=
  ∀ more blocks m, Embeds more blocks (x m) (x (m.embed more blocks))

/-! ### Uses -/

section Uses

variable {x : Exec α} {a : α} {m m' : Moment} {e : Exception} {entries : List TraceEntry}
  {again : Bool}

theorem Local.ok (hx : x.Local) (hm : x m = .ok a m') (more : List Value) (blocks : List Block) :
    x (m.embed more blocks) = .ok a (m'.embed more blocks) := by
  have h := hx more blocks m
  rw [hm] at h
  generalize x (m.embed more blocks) = result at h ⊢
  cases h with
  | ok => rfl

theorem Local.raise (hx : x.Local) (hm : x m = .error (.raise e entries again) m')
    (more : List Value) (blocks : List Block) :
    x (m.embed more blocks) = .error (.raise e entries again) (m'.embed more blocks) := by
  have h := hx more blocks m
  rw [hm] at h
  generalize x (m.embed more blocks) = result at h ⊢
  cases h with
  | raise => rfl

theorem embed_self (m : Moment) : m.embed [] m.frame.blocks = m := by
  simp only [Moment.embed, Frame.embed, append_nil]

theorem Local.blocks_of_ok (hx : x.Local) (hm : x m = .ok a m') :
    m'.frame.blocks = m.frame.blocks := by
  have h := hx.ok hm [] m.frame.blocks
  rw [embed_self, hm] at h
  rw [(EStateM.Result.ok.inj h).2]
  rfl

theorem Local.blocks_of_raise (hx : x.Local) (hm : x m = .error (.raise e entries again) m') :
    m'.frame.blocks = m.frame.blocks := by
  have h := hx.raise hm [] m.frame.blocks
  rw [embed_self, hm] at h
  rw [(EStateM.Result.error.inj h).2]
  rfl

end Uses

/-! ### Operations -/

theorem Local.bind {x : Exec β} {g : β → Exec α} (hx : x.Local) (hg : ∀ b, (g b).Local) :
    (x >>= g).Local := by
  intro more blocks m
  have hm := hx more blocks m
  show Embeds more blocks (EStateM.bind x g m) (EStateM.bind x g (m.embed more blocks))
  unfold EStateM.bind
  generalize x m = result at hm ⊢
  generalize x (m.embed more blocks) = result' at hm ⊢
  cases hm with
  | ok b m' => exact hg b more blocks m'
  | raise e entries again m' => exact .raise e entries again m'
  | fatal cause m' _ => exact .fatal cause m' _
  | crash m' => exact .crash m'

theorem Local.reading {g : Frame → Exec α} (hread : ∀ more blocks f, g (f.embed more blocks) = g f)
    (hg : ∀ f, (g f).Local) : (frame >>= g).Local := by
  intro more blocks m
  show Embeds more blocks (g m.frame m) (g (m.frame.embed more blocks) (m.embed more blocks))
  rw [hread]
  exact hg m.frame more blocks m

theorem Local.frame_bind {g : Frame → Exec α}
    (hg : ∀ more blocks m,
      Embeds more blocks (g m.frame m) (g (m.frame.embed more blocks) (m.embed more blocks))) :
    (frame >>= g).Local := hg

theorem local_pure (a : α) : Local (pure a : Exec α) := fun _ _ m => .ok a m

theorem local_store : Local store := fun _ _ m => .ok m.memory.store m

theorem local_setStore (s : Store) : Local (setStore s) := fun _ _ m =>
  .ok () { m with memory := { m.memory with store := s } }

theorem local_settle (b : Bool) : Local (settle b) := fun _ _ m => by
  cases b with
  | false => exact .crash m
  | true => exact .ok () m

theorem local_push (v : Value) : Local (push v) := fun _ _ m =>
  .ok () { m with frame := m.frame.push v }

theorem local_fatal (cause : Fatal) : Local (fatal cause : Exec α) := fun _ _ m => .fatal cause m _

theorem local_raise (e : Exception) : Local (raise e : Exec α) := fun _ _ m => .raise e [] false m

theorem local_raiseAgain (e : Exception) (entries : List TraceEntry) :
    Local (raiseAgain e entries : Exec α) := fun _ _ m => .raise e entries true m

theorem local_fail (f : Failure) : Local (fail f : Exec α) :=
  local_store.bind fun _ => (local_setStore _).bind fun _ => local_raise _

theorem local_pop : Local pop := by
  intro more blocks m
  cases hs : m.frame.stack with
  | nil =>
    simp only [pop, hs]
    exact .fatal _ m _
  | cons v rest =>
    simp only [pop, hs, Moment.embed, Frame.embed, cons_append]
    exact .ok v { m with frame := { m.frame with stack := rest } }

theorem local_popMany (n : Nat) : Local (popMany n) := by
  intro more blocks m
  by_cases h : m.frame.stack.length < n
  · simp only [popMany, if_pos h]
    exact .fatal _ m _
  · have hle : n ≤ m.frame.stack.length := Nat.not_lt.1 h
    have hle' : ¬(m.frame.stack ++ more).length < n := by rw [length_append]; omega
    simp only [popMany, if_neg h, Moment.embed, Frame.embed, if_neg hle',
      take_append_of_le_length hle, drop_append_of_le_length hle]
    exact .ok _ { m with frame := { m.frame with stack := m.frame.stack.drop n } }

theorem local_orFailWith (r : Except Failure (α × Store)) : Local (orFailWith r) := by
  cases r with
  | ok r => exact (local_setStore r.2).bind fun _ => local_pure r.1
  | error e => exact local_fail e

/-! ### Instructions -/

theorem Built.isLocal {q : α → Prop} {x : Exec α} (h : Built q x) : x.Local := by
  induction h with
  | pure _ => exact local_pure _
  | bind _ _ hx hg => exact hx.bind hg
  | pop => exact local_pop
  | popMany n => exact local_popMany n
  | push v => exact local_push v
  | pushAll vs =>
    refine Local.frame_bind fun more blocks m => ?_
    have hunpacked : (m.frame.embed more blocks).stack = m.frame.stack ++ more := rfl
    rw [hunpacked, ← append_assoc]
    exact .ok _ { m with frame := { m.frame with stack := vs ++ m.frame.stack } }
  | setFast i v =>
    exact Local.frame_bind fun more blocks m =>
      .ok () { m with frame := { m.frame with fast := m.frame.fast.set i v } }
  | read hread _ hg => exact Local.reading (fun _ _ _ => hread _ _ _) hg
  | store => exact local_store
  | update _ => exact local_store.bind fun s => local_orFailWith _
  | fail e => exact local_fail e
  | raise e => exact local_raise e
  | raiseAgain e entries => exact local_raiseAgain e entries
  | fatal _ => exact local_fatal _

theorem local_storeMap (index : Nat) : Local (onBare .storeMap index) := by
  refine local_pop.bind fun key => local_pop.bind fun v => Local.frame_bind fun more blocks m => ?_
  cases hs : m.frame.stack with
  | nil => exact .fatal _ m _
  | cons w rest =>
    simp only [Frame.embed, hs, cons_append]
    cases w with
    | dict r =>
      exact (local_store.bind fun s => (local_settle (s.pairSettles r key)).bind fun _ =>
        (local_setStore (s.setPair r key v)).bind fun _ => local_pure Signal.next) more blocks m
    | _ => exact .fatal _ m _

theorem local_callWith (v : Value) (args : List Value) (kwargs : Keywords) :
    Local (callWith v args kwargs) := by
  by_cases hv : ∃ f, v = .function f
  · obtain ⟨f, rfl⟩ := hv
    refine local_store.bind fun s => ?_
    split
    · exact (local_setStore _).bind fun _ => local_pure _
    · exact local_fail _
    · exact local_fatal _
  · intro more blocks m
    rw [callWith_of_ne_function fun f hf => hv ⟨f, hf⟩,
      callWith_of_ne_function fun f hf => hv ⟨f, hf⟩]
    simp only [Moment.frame_embed, Moment.memory_embed, Frame.embed]
    cases Memory.callValue m.frame.globals v args kwargs m.memory with
    | ok w memory => exact .ok _ ⟨m.frame.push w, memory⟩
    | error e memory => exact local_fail e more blocks ⟨m.frame, memory⟩

theorem local_jumpTo (index : Nat) (target : Option Nat) : Local (jumpTo index target) := by
  refine Local.frame_bind fun more blocks m => ?_
  dsimp only [Frame.embed]
  split
  · next t =>
    split_ifs
    · exact .ok () { m with frame := { m.frame with ip := t } }
    · exact .fatal _ m _
  · exact .fatal _ m _

theorem local_forIter (index : Nat) (target : Option Nat) :
    Local (onJump .forIter index target) := by
  refine Local.frame_bind fun more blocks m => ?_
  cases hs : m.frame.stack with
  | nil => exact .fatal _ m _
  | cons w rest =>
    simp only [Frame.embed, hs, cons_append]
    cases w with
    | iterator it =>
      simp only [Bind.bind, EStateM.bind, store, Moment.memory_embed]
      cases m.memory.store.iter it with
      | nil =>
        exact local_jumpTo index target more blocks
          { m with frame := { m.frame with stack := rest } }
      | cons v items =>
        exact ((local_setStore _).bind fun _ => local_push v : Local _) more blocks m
    | _ => exact .fatal _ m _

theorem Moving.isLocal {q : α → Prop} {x : Exec α} (h : Moving q x) : x.Local := by
  induction h with
  | built hx => exact hx.isLocal
  | bind hx _ hg => exact hx.isLocal.bind hg
  | answer _ _ hx => exact hx.bind fun _ => local_pure _
  | jumpTo index target => exact local_jumpTo index target
  | forIter index target => exact local_forIter index target
  | settle b _ hx => exact (local_store.bind fun s => local_settle (b s)).bind fun _ => hx
  | storeMap index => exact local_storeMap index
  | edit _ hk =>
    exact (local_store.bind fun s => local_orFailWith _).bind fun b => (hk b).isLocal

end Exec

open Exec in
theorem local_execute (ins : Instruction) (index : Nat) (hop : ins.opcode.movesBlock = false) :
    Local (execute ins index) := by
  by_cases hcall : ∃ op, ins.opcode = .call op
  · obtain ⟨op, arg⟩ := ins
    obtain ⟨op, rfl⟩ := hcall
    show Local (onCall op arg)
    rw [onCall_eq]
    exact (built_operands op arg).isLocal.bind fun p => local_callWith p.1 p.2.1 p.2.2
  · exact (moving_execute index hop fun op h => hcall ⟨op, h⟩).isLocal

/-! ### Instructions that open or close blocks -/

theorem effect_of_movesBlock {op : Opcode} (h : op.movesBlock = true) (arg : UInt32) :
    op.effect arg = (0, 0) := by
  obtain rfl | rfl | rfl := Exec.eq_of_movesBlock h <;> rfl

section MovesBlock

variable {ins : Instruction} {f : Frame} {memory : Memory} {m : Moment} {e : Exception}
  {entries : List TraceEntry} {again : Bool}

theorem ends_of_movesBlock (h : ins.opcode.movesBlock = true) :
    Exec.Ends (execute ins f.ip) ⟨f.ahead, memory⟩ (fun signal m => f.Answers ins signal m.frame)
      (fun stop m => f.Stops ins stop m.frame) := by
  refine execute_ends ins f memory ?_
  rw [effect_of_movesBlock h]
  exact Nat.zero_le _

theorem movesBlock_eq_false_of_call {callee : Frame}
    (hm : execute ins f.ip ⟨f.ahead, memory⟩ = .ok (.call callee) m) :
    ins.opcode.movesBlock = false := by
  by_contra h
  rw [Bool.not_eq_false] at h
  obtain ⟨⟨op, hop⟩, -⟩ := (Exec.ends_iff.1 (ends_of_movesBlock h)).1 _ _ hm
  rw [hop] at h
  cases h

theorem execute_enter {kind : BlockKind} {target index : Nat}
    (hop : ins.opcode = .jump (match kind with | .except => .setupExcept | .loop => .setupLoop))
    (ht : ins.target index = some target) (f : Frame) (memory : Memory) :
    execute ins index ⟨f, memory⟩ =
      .ok .next ⟨{ f with blocks := ⟨kind, target, f.stack.length⟩ :: f.blocks }, memory⟩ := by
  cases kind with
  | except | loop => simp only [execute, hop, ht]; rfl

theorem execute_leave {b : Block} {left : List Block} (index : Nat)
    (hop : ins.opcode = .bare .popBlock) (hb : f.blocks = b :: left) (memory : Memory) :
    execute ins index ⟨f, memory⟩ =
      .ok .next ⟨{ f with blocks := left, stack := truncate b.level f.stack }, memory⟩ := by
  simp only [execute, hop, Exec.onBare, Exec.frame, Bind.bind, EStateM.bind, hb]
  rfl

theorem truncate_of_le {level : Nat} {stack : List Value} (h : stack.length ≤ level) :
    truncate level stack = stack := by
  rw [truncate, Nat.sub_eq_zero_of_le h, drop_zero]

variable (hm : execute ins f.ip ⟨f.ahead, memory⟩ = .error (.raise e entries again) m)
include hm

theorem movesBlock_eq_false_of_raise : ins.opcode.movesBlock = false := by
  by_contra h
  rw [Bool.not_eq_false] at h
  have hsetup (kind : BlockKind) (hop : ins.opcode =
      .jump (match kind with | .except => .setupExcept | .loop => .setupLoop)) : False := by
    cases ht : ins.target f.ip with
    | none =>
      cases kind <;> simp only [execute, hop, ht] at hm <;> cases hm
    | some target =>
      rw [execute_enter hop ht] at hm
      cases hm
  rcases Exec.eq_of_movesBlock h with hop | hop | hop
  · cases hb : f.blocks with
    | nil =>
      simp only [execute, hop, Exec.onBare, Exec.frame, Bind.bind, EStateM.bind, hb] at hm
      cases hm
    | cons b left =>
      have hleave := execute_leave (f := f.ahead) f.ip hop hb memory
      rw [hm] at hleave
      cases hleave
  · exact hsetup .except hop
  · exact hsetup .loop hop

theorem blocks_of_raise : m.frame.blocks = f.blocks :=
  (local_execute ins f.ip (movesBlock_eq_false_of_raise hm)).blocks_of_raise hm

end MovesBlock

end Bytewright
