import Bytewright.Proofs.Machine.Built

/-!
# What every instruction keeps

An instruction moves on only as the last thing it does, so one that finds too few values reports its
own place.  A frame that it calls is fresh.
-/

namespace Bytewright

def Signal.Fresh : Signal → Prop
  | .call callee => ∃ (g : Function) (args : List Value) (kwargs : Keywords)
      (s s' : Store), g.bind args kwargs s = .ok (callee, s')
  | _ => True

theorem Signal.Stays.fresh : {signal : Signal} → signal.Stays → signal.Fresh
  | .next, _ => trivial
  | .ret _, _ => trivial

structure Frame.SameUnit (f g : Frame) : Prop where
  code : g.code = f.code
  slots : g.fast.length = f.fast.length

theorem Frame.SameUnit.refl (f : Frame) : f.SameUnit f := ⟨rfl, rfl⟩

variable {f g h : Frame} {stop : Stop}

theorem Frame.SameUnit.trans (hfg : f.SameUnit g) (hgh : g.SameUnit h) : f.SameUnit h :=
  ⟨hgh.code.trans hfg.code, hgh.slots.trans hfg.slots⟩

structure Stop.Leaves (f : Frame) (stop : Stop) (g : Frame) : Prop where
  sameUnit : f.SameUnit g
  underflow : ∀ k, stop = .fatal (.underflow k) → g.ip = f.ip ∧ k = f.ip - 1
  untraced : ∀ e entries, stop = .raise e entries false → entries = []

theorem Stop.Leaves.after (hgh : stop.Leaves g h) (hfg : f.SameUnit g) (hip : g.ip = f.ip) :
    stop.Leaves f h := by
  refine ⟨hfg.trans hgh.sameUnit, fun k hk => ?_, hgh.untraced⟩
  rw [← hip]
  exact hgh.underflow k hk

theorem Stop.leaves_raise (h : f.SameUnit g) (e : Exception) {entries : List TraceEntry}
    {again : Bool} (hagain : again = false → entries = []) :
    (Stop.raise e entries again).Leaves f g := by
  refine ⟨h, nofun, ?_⟩
  rintro _ _ ⟨⟩
  exact hagain rfl

namespace Exec

variable {α β : Type} {q : α → Prop}

/-- The frame keeps its code, its place and the number of its fast locals. -/
def Keeps (x : Exec α) (q : α → Prop := fun _ => True) : Prop :=
  ∀ m, Ends x m (fun a m' => m.frame.SameUnit m'.frame ∧ m'.frame.ip = m.frame.ip ∧ q a)
    (fun stop m' => stop.Leaves m.frame m'.frame)

/-- The frame keeps its code and the number of its fast locals. -/
def Moves (x : Exec α) (q : α → Prop := fun _ => True) : Prop :=
  ∀ m, Ends x m (fun a m' => m.frame.SameUnit m'.frame ∧ q a)
    (fun stop m' => stop.Leaves m.frame m'.frame)

/-! ### Operations -/

theorem Keeps.moves {x : Exec α} (h : x.Keeps q) : x.Moves q := fun m =>
  (h m).mono (fun _ _ hm => ⟨hm.1, hm.2.2⟩) (fun _ _ hm => hm)

theorem Moves.imp {x : Exec α} {q' : α → Prop} (h : x.Moves q) (hq : ∀ {a}, q a → q' a) :
    x.Moves q' := fun m => (h m).mono (fun _ _ hm => ⟨hm.1, hq hm.2⟩) (fun _ _ hm => hm)

theorem Keeps.answering {x : Exec α} (hx : x.Keeps) (hq : ∀ m a m', x m = .ok a m' → q a) :
    x.Keeps q := by
  intro m
  have hm := hx m
  unfold Ends at hm ⊢
  split at hm
  · next a m' hok => exact ⟨hm.1, hm.2.1, hq m a m' hok⟩
  · exact hm

theorem Keeps.bind {x : Exec β} {g : β → Exec α} (hx : x.Keeps) (hg : ∀ b, (g b).Keeps q) :
    (x >>= g).Keeps q := fun m => (hx m).bind fun b m' hm =>
  (hg b m').mono (fun _ _ hm' => ⟨hm.1.trans hm'.1, hm'.2.1.trans hm.2.1, hm'.2.2⟩)
    (fun _ _ hm' => hm'.after hm.1 hm.2.1)

theorem Keeps.bind_moves {x : Exec β} {g : β → Exec α} (hx : x.Keeps) (hg : ∀ b, (g b).Moves q) :
    (x >>= g).Moves q := fun m => (hx m).bind fun b m' hm =>
  (hg b m').mono (fun _ _ hm' => ⟨hm.1.trans hm'.1, hm'.2⟩) (fun _ _ hm' => hm'.after hm.1 hm.2.1)

theorem Moves.answer {x : Exec β} (hx : x.Moves) {a : α} (ha : q a) :
    (x >>= fun _ => pure a).Moves q := fun m => (hx m).bind fun _ _ hm => ⟨hm.1, ha⟩

theorem Keeps.frame_bind {g : Frame → Exec α}
    (hg : ∀ m : Moment, Ends (g m.frame) m
      (fun a m' => m.frame.SameUnit m'.frame ∧ m'.frame.ip = m.frame.ip ∧ q a)
      (fun stop m' => stop.Leaves m.frame m'.frame)) : (frame >>= g).Keeps q := by
  intro m
  rw [ends_bind, ends_frame]
  exact hg m

theorem keeps_pure {a : α} (ha : q a) : Keeps (pure a : Exec α) q := fun _ => ⟨.refl _, rfl, ha⟩

theorem keeps_store : Keeps store := fun _ => ⟨.refl _, rfl, trivial⟩

theorem keeps_setStore (s : Store) : Keeps (setStore s) := fun _ => ⟨.refl _, rfl, trivial⟩

theorem keeps_settle (b : Bool) : Keeps (settle b) := fun _ =>
  ends_settle b ⟨.refl _, rfl, trivial⟩ ⟨.refl _, nofun, nofun⟩

theorem keeps_push (v : Value) : Keeps (push v) := fun _ => ⟨⟨rfl, rfl⟩, rfl, trivial⟩

theorem keeps_fatal {cause : Fatal} (hcause : ∀ k, cause ≠ .underflow k) :
    Keeps (fatal cause : Exec α) q := fun _ =>
  ⟨.refl _, fun k hk => absurd (Stop.fatal.inj hk) (hcause k), nofun⟩

theorem keeps_fail (e : Failure) : Keeps (fail e : Exec α) q := fun _ =>
  Stop.leaves_raise (.refl _) _ fun _ => rfl

theorem keeps_raise (e : Exception) : Keeps (raise e : Exec α) q := fun _ =>
  Stop.leaves_raise (.refl _) _ fun _ => rfl

theorem keeps_raiseAgain (e : Exception) (entries : List TraceEntry) :
    Keeps (raiseAgain e entries : Exec α) q := fun _ => Stop.leaves_raise (.refl _) _ nofun

theorem keeps_pop : Keeps pop := by
  intro m
  cases hs : m.frame.stack with
  | nil =>
    simp only [Ends, pop, hs]
    exact ⟨.refl _, fun k hk => ⟨rfl, by cases hk; rfl⟩, by simp⟩
  | cons v rest =>
    simp only [Ends, pop, hs]
    exact ⟨⟨rfl, rfl⟩, trivial, trivial⟩

theorem keeps_popMany (n : Nat) : Keeps (popMany n) := by
  intro m
  by_cases h : m.frame.stack.length < n
  · simp only [Ends, popMany, if_pos h]
    exact ⟨.refl _, fun k hk => ⟨rfl, by cases hk; rfl⟩, by simp⟩
  · simp only [Ends, popMany, if_neg h]
    exact ⟨⟨rfl, rfl⟩, trivial, trivial⟩

theorem keeps_orFailWith (r : Except Failure (α × Store)) : Keeps (orFailWith r) := by
  cases r with
  | ok r => exact (keeps_setStore r.2).bind fun _ => keeps_pure trivial
  | error e => exact keeps_fail e

/-! ### Instructions -/

theorem Built.keeps {x : Exec α} (h : Built q x) : x.Keeps q := by
  induction h with
  | pure ha => exact keeps_pure ha
  | bind _ _ hx hg => exact hx.bind hg
  | pop => exact keeps_pop
  | popMany n => exact keeps_popMany n
  | push v => exact keeps_push v
  | pushAll vs => exact fun m => ⟨⟨rfl, rfl⟩, rfl, trivial⟩
  | setFast i v => exact fun m => ⟨⟨rfl, List.length_set⟩, rfl, trivial⟩
  | read _ _ hg => exact .frame_bind fun m => hg m.frame m
  | store => exact keeps_store
  | update _ => exact keeps_store.bind fun s => keeps_orFailWith _
  | fail e => exact keeps_fail e
  | raise e => exact keeps_raise e
  | raiseAgain e entries => exact keeps_raiseAgain e entries
  | fatal hcause => exact keeps_fatal hcause

theorem keeps_storeMap (index : Nat) : Keeps (onBare .storeMap index) Signal.Stays := by
  refine keeps_pop.bind fun key => keeps_pop.bind fun v => Keeps.frame_bind fun m => ?_
  split
  · exact (keeps_store.bind fun s => (keeps_settle _).bind fun _ =>
      (keeps_setStore _).bind fun _ => keeps_pure trivial) m
  · exact keeps_fatal (by simp) m

theorem keeps_callWith (v : Value) (args : List Value) (kwargs : Keywords) :
    Keeps (callWith v args kwargs) Signal.Fresh := by
  intro m
  refine (callWith_ends v args kwargs m).mono (fun signal m' h => ?_) (fun stop m' h => ?_)
  · cases signal with
    | next =>
      obtain ⟨w, hw⟩ := h
      rw [hw]
      exact ⟨⟨rfl, rfl⟩, rfl, trivial⟩
    | ret w => exact h.elim
    | call callee =>
      obtain ⟨hm, g, s, s', -, hbind⟩ := h
      rw [hm]
      exact ⟨.refl _, rfl, g, args, kwargs, s, s', hbind⟩
  · rw [h.1]
    refine ⟨.refl _, ?_, ?_⟩
    · rintro k rfl
      obtain ⟨g, s, -, hbind⟩ := h.2
      cases FunctionOf.eq_tooFewLocals_of_bind hbind
    · rintro e entries rfl
      exact h.2

theorem keeps_onCall (op : CallOp) (arg : UInt32) : Keeps (onCall op arg) Signal.Fresh := by
  rw [onCall_eq]
  exact (built_operands op arg).keeps.bind fun p => keeps_callWith p.1 p.2.1 p.2.2

theorem moves_jumpTo (index : Nat) (target : Option Nat) : Moves (jumpTo index target) := by
  intro m
  rw [jumpTo, ends_bind, ends_frame]
  split
  · split_ifs
    · exact ⟨⟨rfl, rfl⟩, trivial⟩
    · exact (keeps_fatal (by simp)).moves m
  · exact (keeps_fatal (by simp)).moves m

theorem keeps_enterBlock (kind : BlockKind) (index : Nat) (target : Option Nat) :
    Keeps (enterBlock kind index target) := by
  refine Keeps.frame_bind fun m => ?_
  split
  · exact ⟨⟨rfl, rfl⟩, rfl, trivial⟩
  · exact keeps_fatal (by simp) m

theorem keeps_popBlock (index : Nat) : Keeps (onBare .popBlock index) Signal.Stays := by
  refine Keeps.frame_bind fun m => ?_
  split
  · exact ⟨⟨rfl, rfl⟩, rfl, trivial⟩
  · exact keeps_fatal (by simp) m

theorem moves_forIter (index : Nat) (target : Option Nat) :
    Moves (onJump .forIter index target) := by
  intro m
  rw [onJump, ends_bind, ends_frame]
  split
  · rw [ends_bind, ends_store]
    split
    · exact ⟨⟨rfl, rfl⟩, trivial⟩
    · rw [ends_bind, ends_setFrame]
      exact (moves_jumpTo index target _).mono (fun _ _ h => ⟨⟨h.1.code, h.1.slots⟩, trivial⟩)
        (fun _ _ h => ⟨⟨h.sameUnit.code, h.sameUnit.slots⟩, h.underflow, h.untraced⟩)
  · exact (keeps_fatal (by simp)).moves m

theorem Moving.moves {x : Exec α} (h : Moving q x) : x.Moves q := by
  induction h with
  | built hx => exact hx.keeps.moves
  | bind hx _ hg => exact hx.keeps.bind_moves hg
  | answer _ ha hx => exact hx.answer ha
  | settle b _ hx => exact (keeps_store.bind fun s => keeps_settle (b s)).bind_moves fun _ => hx
  | jumpTo index target => exact moves_jumpTo index target
  | forIter index target => exact moves_forIter index target
  | storeMap index => exact (keeps_storeMap index).moves
  | edit _ hk =>
    exact ((keeps_store.bind fun s => keeps_orFailWith _).bind fun b => (hk b).keeps).moves

end Exec

open Exec in
theorem execute_stays (ins : Instruction) (index : Nat) (hop : ∀ op, ins.opcode ≠ .call op) :
    Moves (execute ins index) Signal.Stays := by
  by_cases hblock : ins.opcode.movesBlock = true
  · obtain h | ⟨kind, target, h⟩ := execute_of_movesBlock hblock index
    · exact h ▸ (keeps_popBlock index).moves
    · exact h ▸ (keeps_enterBlock kind index target).moves.answer trivial
  · exact (moving_execute index (Bool.not_eq_true _ ▸ hblock) hop).moves

open Exec in
theorem execute_moves (ins : Instruction) (index : Nat) :
    Moves (execute ins index) Signal.Fresh := by
  by_cases hop : ∃ op, ins.opcode = .call op
  · obtain ⟨op, arg⟩ := ins
    obtain ⟨op, rfl⟩ := hop
    exact (keeps_onCall op arg).moves
  · exact (execute_stays ins index fun op h => hop ⟨op, h⟩).imp Signal.Stays.fresh

variable {ins : Instruction} {index : Nat} {m m' : Moment}

theorem sameUnit_of_execute {signal : Signal} (h : execute ins index m = .ok signal m') :
    m.frame.SameUnit m'.frame ∧ signal.Fresh :=
  (Exec.ends_iff.1 (execute_moves ins index m)).1 _ _ h

theorem leaves_of_execute (h : execute ins index m = .error stop m') :
    stop.Leaves m.frame m'.frame :=
  (Exec.ends_iff.1 (execute_moves ins index m)).2 _ _ h

end Bytewright
