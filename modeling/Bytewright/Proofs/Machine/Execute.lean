import Bytewright.Code.Depth
import Bytewright.Proofs.Machine.Exec

/-!
# What an instruction does to its frame

The relations of this file say all that can happen, for every instruction that finds as many values
as it takes.
-/

namespace Bytewright

open List

/-! ### Kinds of values -/

/-- What is known of a value on the stack. -/
inductive Kind where
  | any
  | dict
  | iterator
deriving DecidableEq, Repr

def Kind.Holds : Kind → Value → Prop
  | any, _ => True
  | dict, v => ∃ r, v = .dict r
  | iterator, v => ∃ r, v = .iterator r

def Opcode.leaves (op : Opcode) (arg : UInt32) : List Kind :=
  match op with
  | .bare .storeMap | .count .buildMap => [.dict]
  | .bare .getIter => [.iterator]
  | .jump .forIter => [.any, .iterator]
  | op => List.replicate (op.effect arg).2 .any

@[simp] theorem length_leaves (op : Opcode) (arg : UInt32) :
    (op.leaves arg).length = (op.effect arg).2 := by
  unfold Opcode.leaves
  split
  · rfl
  · rfl
  · rfl
  · rfl
  · exact length_replicate

theorem forall₂_holds_replicate (vs : List Value) :
    Forall₂ Kind.Holds (List.replicate vs.length .any) vs := by
  induction vs with
  | nil => exact .nil
  | cons v vs ih => exact .cons trivial ih

/-! ### Frames after an instruction -/

def Opcode.movesBlock : Opcode → Bool
  | .bare .popBlock | .jump .setupExcept | .jump .setupLoop => true
  | _ => false

/-- The instruction compares values for equality. -/
def Opcode.compares : Opcode → Bool
  | .bare .storeMap | .bare .binarySubscr | .bare .storeSubscr | .compareOp => true
  | _ => false

/-- Values are taken off the stack, and others of the given kinds are put in their place. -/
structure Frame.Turns (f g : Frame) (ip taken : Nat) (kinds : List Kind) : Prop where
  code_eq : g.code = f.code
  ip_eq : g.ip = ip
  blocks_eq : g.blocks = f.blocks
  stack_eq : ∃ vs, Forall₂ Kind.Holds kinds vs ∧ g.stack = vs ++ f.stack.drop taken

/-- The instruction falls through, jumps, or opens or closes a block. -/
inductive Frame.Step (ins : Instruction) (f : Frame) : Frame → Prop
  | fall {g : Frame} (hflow : ins.opcode.endsFlow = false) (hblock : ins.opcode.movesBlock = false)
      (h : f.Turns g (f.ip + 1) (ins.opcode.effect ins.arg).1 (ins.opcode.leaves ins.arg)) :
      Step ins f g
  | jump {g : Frame} {target : Nat} (hblock : ins.opcode.movesBlock = false)
      (ht : ins.target f.ip = some target) (hle : target ≤ f.code.code.length)
      (h : f.Turns g target (ins.opcode.effect ins.arg).1 []) : Step ins f g
  | enter {g : Frame} {kind : BlockKind} {target : Nat}
      (hop : ins.opcode = .jump (match kind with | .except => .setupExcept | .loop => .setupLoop))
      (ht : ins.target f.ip = some target)
      (h : g = { f with
        ip := f.ip + 1, blocks := ⟨kind, target, f.stack.length⟩ :: f.blocks }) : Step ins f g
  | leave {g : Frame} {b : Block} {outer : List Block} (hop : ins.opcode = .bare .popBlock)
      (hb : f.blocks = b :: outer)
      (h : g = { f with
        ip := f.ip + 1, blocks := outer, stack := truncate b.level f.stack }) : Step ins f g

/-- An instruction that raises has taken at most what it takes and has changed nothing else. -/
structure Frame.Interrupted (ins : Instruction) (f g : Frame) : Prop where
  code_eq : g.code = f.code
  ip_eq : g.ip = f.ip + 1
  blocks_eq : g.blocks = f.blocks
  stack_eq : ∃ n ≤ (ins.opcode.effect ins.arg).1, g.stack = f.stack.drop n

/-- The instruction is cut off for this cause. -/
def Frame.Breakdown (ins : Instruction) (f : Frame) : Fatal → Prop
  | .constRange _ => ins.opcode = .loadConst ∧ f.code.consts[ins.arg.toNat]? = none
  | .nameRange _ =>
    ∃ op, ins.opcode = .name op ∧ (f.code.pool op.pool)[ins.arg.toNat]? = none
  | .unknownArith _ => ins.opcode = .binaryOp ∧ ArithOp.ofIndex? ins.arg.toNat = none
  | .unknownCompare _ => ins.opcode = .compareOp ∧ CompareOp.ofIndex? ins.arg.toNat = none
  | .noDict _ => ins.opcode = .bare .storeMap ∧ ∀ v, f.stack[2]? = some v → ¬Kind.dict.Holds v
  | .noIterator _ =>
    ins.opcode = .jump .forIter ∧ ∀ v, f.stack[0]? = some v → ¬Kind.iterator.Holds v
  | .notCode _ => ins.opcode = .count .makeFunction
  | .badRaise _ => ins.opcode = .count .raiseVarargs ∧ 3 < ins.arg.toNat
  | .noBlock _ => ins.opcode = .bare .popBlock ∧ f.blocks = []
  | .badJump _ => ∃ target, ins.target f.ip = some target ∧ f.code.code.length < target
  | .tooFewLocals _ _ _ =>
    (∃ op, ins.opcode = .call op) ∧
      ∃ g, f.stack[(ins.opcode.effect ins.arg).1 - 1]? = some (.function g)
  | _ => False

def Frame.Answers (ins : Instruction) (f : Frame) : Signal → Frame → Prop
  | .next, g => f.Step ins g
  | .ret v, g =>
    ins.opcode = .bare .returnValue ∧ g.code = f.code ∧ g.blocks = f.blocks ∧
      f.stack = v :: g.stack
  | .call callee, g =>
    (∃ op, ins.opcode = .call op) ∧ f.Turns g (f.ip + 1) (ins.opcode.effect ins.arg).1 [] ∧
      ∃ h args kwargs s s', f.stack[(ins.opcode.effect ins.arg).1 - 1]? = some (.function h) ∧
        h.bind args kwargs s = .ok (callee, s')

def Frame.Stops (ins : Instruction) (f : Frame) : Stop → Frame → Prop
  | .raise _ _ _, g => f.Interrupted ins g
  | .fatal cause, _ => f.Breakdown ins cause
  | .crash, _ => ins.opcode.compares = true

theorem FunctionOf.eq_tooFewLocals_of_bind {g : Function} {args : List Value}
    {kwargs : Keywords} {s : Store} {cause : Fatal}
    (h : g.bind args kwargs s = .error (.inr cause)) :
    cause = .tooFewLocals g.code.name g.code.argumentSlots g.code.varNames.length := by
  simp only [FunctionOf.bind] at h
  split at h
  · cases h
    rfl
  · split at h <;> cases h

/-! ### One step of an instruction -/

namespace Frame

variable {ins : Instruction} {f : Frame} {rest : List Value}

abbrev ahead (f : Frame) : Frame := { f with ip := f.ip + 1 }

theorem Interrupted.of_append (taken : List Value) (hs : f.stack = taken ++ rest)
    (hle : taken.length ≤ (ins.opcode.effect ins.arg).1) :
    f.Interrupted ins { f.ahead with stack := rest } :=
  ⟨rfl, rfl, rfl, taken.length, hle, by rw [hs, drop_left]⟩

variable {fast : List (Option Value)}

theorem Step.of_append (taken vs : List Value) (hs : f.stack = taken ++ rest)
    (hvs : Forall₂ Kind.Holds (ins.opcode.leaves ins.arg) vs)
    (hflow : ins.opcode.endsFlow = false := by rfl)
    (hblock : ins.opcode.movesBlock = false := by rfl)
    (htaken : taken.length = (ins.opcode.effect ins.arg).1 := by rfl) :
    f.Step ins { f with ip := f.ip + 1, fast := fast, stack := vs ++ rest } :=
  .fall hflow hblock ⟨rfl, rfl, rfl, vs, hvs, by rw [hs, ← htaken, drop_left]⟩

theorem Step.of_append_any (taken vs : List Value) (hs : f.stack = taken ++ rest)
    (hvs : ins.opcode.leaves ins.arg = List.replicate vs.length .any := by rfl)
    (hflow : ins.opcode.endsFlow = false := by rfl)
    (hblock : ins.opcode.movesBlock = false := by rfl)
    (htaken : taken.length = (ins.opcode.effect ins.arg).1 := by rfl) :
    f.Step ins { f with ip := f.ip + 1, fast := fast, stack := vs ++ rest } :=
  .of_append taken vs hs (hvs ▸ forall₂_holds_replicate vs) hflow hblock htaken

end Frame

namespace Exec

theorem exists_two_of_le_length {vs : List Value} (h : 2 ≤ vs.length) :
    ∃ a b rest, vs = a :: b :: rest := by
  obtain ⟨a, vs, rfl⟩ := exists_cons_of_length_pos (Nat.zero_lt_of_lt h)
  obtain ⟨b, rest, rfl⟩ := exists_cons_of_length_pos (Nat.lt_of_succ_lt_succ h)
  exact ⟨a, b, rest, rfl⟩

theorem exists_three_of_le_length {vs : List Value} (h : 3 ≤ vs.length) :
    ∃ a b c rest, vs = a :: b :: c :: rest := by
  obtain ⟨a, vs, rfl⟩ := exists_cons_of_length_pos (Nat.zero_lt_of_lt h)
  obtain ⟨b, c, rest, rfl⟩ := exists_two_of_le_length (Nat.le_of_succ_le_succ h)
  exact ⟨a, b, c, rest, rfl⟩

theorem iterate_ends (v : Value) (m : Moment) :
    Ends (iterate v) m (fun w m' => m'.frame = m.frame ∧ Kind.iterator.Holds w)
      (fun s m' => m'.frame = m.frame ∧ ∃ e, s = .raise e [] false) := by
  unfold iterate
  split
  · exact ⟨rfl, _, rfl⟩
  · rw [ends_bind, ends_store]
    split
    · exact ⟨rfl, _, rfl⟩
    · exact ⟨rfl, _, rfl⟩

theorem onBare_ends (op : BareOp) (arg : UInt32) (f : Frame) (mem : Memory)
    (h : ((Opcode.bare op).effect arg).1 ≤ f.stack.length) :
    Ends (onBare op f.ip) ⟨f.ahead, mem⟩
      (fun signal m => f.Answers ⟨.bare op, arg⟩ signal m.frame)
      (fun s m => f.Stops ⟨.bare op, arg⟩ s m.frame) := by
  cases op with simp only [onBare, ends_bind]
  | popTop =>
    obtain ⟨a, rest, hs⟩ := exists_cons_of_length_pos h
    rw [ends_pop_cons hs]
    exact .of_append [a] [] hs .nil
  | rotTwo =>
    obtain ⟨b, a, rest, hs⟩ := exists_two_of_le_length h
    rw [ends_pop_cons hs, ends_pop_cons rfl]
    exact .of_append_any [b, a] [a, b] hs
  | rotThree =>
    obtain ⟨c, b, a, rest, hs⟩ := exists_three_of_le_length h
    rw [ends_pop_cons hs, ends_pop_cons rfl, ends_pop_cons rfl]
    exact .of_append_any [c, b, a] [b, a, c] hs
  | dupTop =>
    obtain ⟨a, rest, hs⟩ := exists_cons_of_length_pos h
    rw [ends_pop_cons hs]
    exact .of_append_any [a] [a, a] hs
  | dupTopTwo =>
    obtain ⟨b, a, rest, hs⟩ := exists_two_of_le_length h
    rw [ends_popMany (by simp [hs])]
    simp only [hs, take_succ_cons, take_zero, reverse_cons, reverse_nil,
      nil_append, singleton_append, drop_succ_cons, drop_zero]
    exact .of_append_any [b, a] [b, a, b, a] hs
  | storeMap =>
    obtain ⟨key, v, d, rest, hs⟩ := exists_three_of_le_length h
    rw [ends_pop_cons hs, ends_pop_cons rfl, ends_frame]
    cases d with
    | dict r =>
      simp only [ends_bind, ends_store]
      refine ends_settle _ ?_ rfl
      exact .of_append [key, v, .dict r] [.dict r] hs (.cons ⟨r, rfl⟩ .nil)
    | _ => exact ⟨rfl, by simp [hs, Kind.Holds]⟩
  | binarySubscr =>
    obtain ⟨key, obj, rest, hs⟩ := exists_two_of_le_length h
    rw [ends_pop_cons hs, ends_pop_cons rfl, ends_store]
    refine ends_settle _ (ends_orFail (fun v _ => ?_) (fun e _ => ?_)) rfl
    · exact .of_append_any [key, obj] [v] hs
    · exact .of_append [key, obj] hs le_rfl
  | storeSubscr =>
    obtain ⟨key, obj, v, rest, hs⟩ := exists_three_of_le_length h
    rw [ends_pop_cons hs, ends_pop_cons rfl, ends_pop_cons rfl, ends_store]
    refine ends_settle _ (ends_orFail (fun s _ => ?_) (fun e _ => ?_)) rfl
    · exact .of_append [key, obj, v] [] hs .nil
    · exact .of_append [key, obj, v] hs le_rfl
  | unaryNot =>
    obtain ⟨a, rest, hs⟩ := exists_cons_of_length_pos h
    rw [ends_popCondition_cons hs]
    exact .of_append_any [a] [_] hs
  | unaryNegative =>
    obtain ⟨a, rest, hs⟩ := exists_cons_of_length_pos h
    rw [ends_pop_cons hs]
    refine ends_orFail (fun v _ => ?_) (fun e _ => ?_)
    · exact .of_append_any [a] [v] hs
    · exact .of_append [a] hs le_rfl
  | popBlock =>
    simp only [ends_frame]
    cases hb : f.blocks with
    | nil => exact ⟨rfl, hb⟩
    | cons b outer => exact .leave rfl hb rfl
  | getIter =>
    obtain ⟨a, rest, hs⟩ := exists_cons_of_length_pos h
    rw [ends_pop_cons hs]
    refine (iterate_ends a _).mono ?_ ?_
    · rintro w m ⟨hm, hw⟩
      rw [ends_push, hm]
      have hkinds : Forall₂ Kind.Holds ((Opcode.bare .getIter).leaves arg) [w] :=
        .cons hw .nil
      exact .of_append [a] [w] hs hkinds
    · rintro s m ⟨hm, e, rfl⟩
      rw [hm]
      exact .of_append [a] hs le_rfl
  | endFinally =>
    obtain ⟨type, v, tb, rest, hs⟩ := exists_three_of_le_length h
    rw [ends_pop_cons hs, ends_pop_cons rfl, ends_pop_cons rfl]
    have hraise : f.Interrupted ⟨.bare .endFinally, arg⟩ { f.ahead with stack := rest } :=
      .of_append [type, v, tb] hs le_rfl
    have hnext : f.Step ⟨.bare .endFinally, arg⟩ { f.ahead with stack := rest } :=
      .of_append [type, v, tb] [] hs .nil
    cases type with
    | exceptionType kind =>
      simp only [ends_bind, ends_store]
      refine ends_orFailWith (fun e s _ => ?_) (fun _ _ => hraise)
      split <;> exact hraise
    | _ => exact hnext
  | returnValue =>
    obtain ⟨v, rest, hs⟩ := exists_cons_of_length_pos h
    rw [ends_pop_cons hs]
    exact ⟨rfl, rfl, rfl, hs⟩

theorem onName_ends (op : NameOp) (arg : UInt32) (i : Nat) (x : String) (f : Frame) (mem : Memory)
    (h : ((Opcode.name op).effect arg).1 ≤ f.stack.length) :
    Ends (onName op i x) ⟨f.ahead, mem⟩ (fun _ m => f.Step ⟨.name op, arg⟩ m.frame)
      (fun s m => f.Stops ⟨.name op, arg⟩ s m.frame) := by
  have hstay : f.Interrupted ⟨.name op, arg⟩ f.ahead :=
    Frame.Interrupted.of_append [] rfl (Nat.zero_le _)
  cases op with simp only [onName, ends_bind, ends_frame, ends_store]
  | loadFast | loadDeref =>
    split
    · exact .of_append_any [] [_] rfl
    · exact hstay
  | storeFast =>
    obtain ⟨v, rest, hs⟩ := exists_cons_of_length_pos h
    rw [ends_pop_cons hs]
    exact .of_append [v] [] hs .nil
  | deleteFast =>
    split
    · exact .of_append [] [] rfl .nil
    · exact hstay
  | loadName =>
    split
    · exact .of_append_any [] [_] rfl
    · rw [ends_bind]
      refine ends_orFail (fun v _ => ?_) (fun e _ => ?_)
      · exact .of_append_any [] [v] rfl
      · exact hstay
  | storeName | storeGlobal =>
    obtain ⟨v, rest, hs⟩ := exists_cons_of_length_pos h
    rw [ends_pop_cons hs]
    exact .of_append [v] [] hs .nil
  | deleteName | deleteGlobal =>
    simp only [deleteFrom, ends_bind, ends_store]
    split
    · exact .of_append [] [] rfl .nil
    · exact hstay
  | loadGlobal =>
    refine ends_orFail (fun v _ => ?_) (fun e _ => ?_)
    · exact .of_append_any [] [v] rfl
    · exact hstay
  | loadAttr =>
    obtain ⟨obj, rest, hs⟩ := exists_cons_of_length_pos h
    rw [ends_pop_cons hs]
    refine ends_orFailWith (fun v s _ => ?_) (fun e _ => ?_)
    · exact .of_append_any [obj] [v] hs
    · exact .of_append [obj] hs le_rfl
  | storeAttr =>
    obtain ⟨obj, v, rest, hs⟩ := exists_two_of_le_length h
    rw [ends_pop_cons hs, ends_pop_cons rfl]
    refine ends_orFail (fun s _ => ?_) (fun e _ => ?_)
    · exact .of_append [obj, v] [] hs .nil
    · exact .of_append [obj, v] hs le_rfl

theorem raiseOperands_ends (arg : UInt32) (f : Frame) (mem : Memory)
    (h : arg.toNat ≤ f.stack.length) :
    Ends (raiseOperands arg.toNat) ⟨f.ahead, mem⟩
      (fun signal m => f.Answers ⟨.count .raiseVarargs, arg⟩ signal m.frame)
      (fun s m => f.Stops ⟨.count .raiseVarargs, arg⟩ s m.frame) := by
  have htaken : ∀ taken rest, f.stack = taken ++ rest → taken.length ≤ arg.toNat →
      f.Interrupted ⟨.count .raiseVarargs, arg⟩ { f.ahead with stack := rest } :=
    fun taken rest hs hle => .of_append taken hs hle
  unfold raiseOperands
  split
  next =>
    simp only [ends_bind, ends_frame]
    split
    · exact htaken [] _ rfl (Nat.zero_le _)
    · exact htaken [] _ rfl (Nat.zero_le _)
  next hn =>
    obtain ⟨type, rest, hs⟩ := exists_cons_of_length_pos (hn ▸ h)
    simp only [ends_bind]
    rw [ends_pop_cons hs, ends_store]
    exact ends_orFailWith (fun e s _ => htaken [type] rest hs hn.ge)
      (fun e _ => htaken [type] rest hs hn.ge)
  next hn =>
    obtain ⟨v, type, rest, hs⟩ := exists_two_of_le_length (hn ▸ h)
    simp only [ends_bind]
    rw [ends_pop_cons hs, ends_pop_cons rfl, ends_store]
    exact ends_orFailWith (fun e s _ => htaken [v, type] rest hs hn.ge)
      (fun e _ => htaken [v, type] rest hs hn.ge)
  next hn =>
    obtain ⟨tb, v, type, rest, hs⟩ := exists_three_of_le_length (hn ▸ h)
    simp only [ends_bind]
    rw [ends_pop_cons hs, ends_pop_cons rfl, ends_pop_cons rfl, ends_store]
    have hrest := htaken [tb, v, type] rest hs hn.ge
    refine ends_orFailWith (fun e s _ => ?_) (fun e _ => hrest)
    split
    · exact hrest
    · exact hrest
    · exact hrest
  next h₀ h₁ h₂ h₃ =>
    have hlt : 3 < arg.toNat := by
      by_contra hle
      interval_cases hn : arg.toNat
      · exact h₀ rfl
      · exact h₁ rfl
      · exact h₂ rfl
      · exact h₃ rfl
    exact ⟨rfl, hlt⟩

theorem onCount_ends (op : CountOp) (arg : UInt32) (f : Frame) (mem : Memory)
    (h : ((Opcode.count op).effect arg).1 ≤ f.stack.length) :
    Ends (onCount op arg.toNat) ⟨f.ahead, mem⟩
      (fun signal m => f.Answers ⟨.count op, arg⟩ signal m.frame)
      (fun s m => f.Stops ⟨.count op, arg⟩ s m.frame) := by
  cases op with
  | buildTuple | buildList =>
    simp only [onCount, ends_bind]
    rw [ends_popMany h]
    exact .of_append_any (f.stack.take arg.toNat) [_] (take_append_drop _ _).symm rfl rfl rfl
      (length_take_of_le h)
  | buildMap =>
    simp only [onCount, ends_bind, ends_store]
    have hkinds : Forall₂ Kind.Holds ((Opcode.count .buildMap).leaves arg)
      [(mem.store.newDict []).1] := .cons ⟨_, rfl⟩ .nil
    exact .of_append [] [_] rfl hkinds
  | unpackSequence =>
    obtain ⟨v, rest, hs⟩ := exists_cons_of_length_pos h
    simp only [onCount, ends_bind]
    rw [ends_pop_cons hs, ends_store]
    have htaken : f.Interrupted ⟨.count .unpackSequence, arg⟩ { f.ahead with stack := rest } :=
      .of_append [v] hs le_rfl
    split
    · exact htaken
    · next items _ =>
      split
      · next hlen =>
        exact .of_append_any [v] items hs (by rw [hlen]; rfl)
      · exact htaken
  | makeFunction =>
    have hle : arg.toNat < f.stack.length := h
    obtain ⟨v, rest, hs⟩ := exists_cons_of_length_pos (Nat.zero_lt_of_lt hle)
    rw [hs, length_cons, Nat.lt_succ_iff] at hle
    simp only [onCount, ends_bind]
    rw [ends_pop_cons hs, ends_popMany hle]
    cases v with
    | code c unit =>
      have happend : f.stack = (.code c unit :: rest.take arg.toNat) ++ rest.drop arg.toNat := by
        rw [hs, cons_append, take_append_drop]
      exact .of_append_any _ [_] happend rfl rfl rfl (congrArg Nat.succ (length_take_of_le hle))
    | _ => exact rfl
  | raiseVarargs => exact raiseOperands_ends arg f mem h

def spreadCount : CallOp → Nat
  | .callFunction => 0
  | .callFunctionVar => 1

theorem effect_call (op : CallOp) (arg : UInt32) :
    (Opcode.call op).effect arg =
      (spreadCount op + 2 * (splitArgSpec arg).2.toNat + (splitArgSpec arg).1.toNat + 1, 1) := by
  cases op with
  | callFunction | callFunctionVar =>
    exact Prod.ext (by simp only [Opcode.effect, spreadCount]; omega) rfl

theorem popSpread_ends (op : CallOp) (m : Moment) (h : spreadCount op ≤ m.frame.stack.length) :
    Ends (popSpread op) m
      (fun _ m' => m'.frame = { m.frame with stack := m.frame.stack.drop (spreadCount op) })
      (fun s m' => m'.frame = { m.frame with stack := m.frame.stack.drop (spreadCount op) } ∧
        ∃ e, s = .raise e [] false) := by
  cases op with
  | callFunction => exact rfl
  | callFunctionVar =>
    obtain ⟨v, rest, hs⟩ := exists_cons_of_length_pos h
    simp only [popSpread, ends_bind, hs]
    rw [ends_pop_cons hs, ends_store]
    split
    · exact rfl
    · exact ⟨rfl, _, rfl⟩

theorem callWith_function (g : Function) (args : List Value) (kwargs : Keywords) :
    callWith (.function g) args kwargs = (do
      match g.bind args kwargs (← store) with
      | .ok (callee, s) => setStore s; return .call callee
      | .error (.inl e) => fail e
      | .error (.inr cause) => fatal cause) := rfl

theorem callWith_of_ne_function {v : Value} (hv : ∀ g, v ≠ .function g) (args : List Value)
    (kwargs : Keywords) (m : Moment) :
    callWith v args kwargs m =
      match Memory.callValue m.frame.globals v args kwargs m.memory with
      | .ok w memory => .ok .next { frame := m.frame.push w, memory }
      | .error e memory => fail e { m with memory } := by
  cases v with
  | function g => exact absurd rfl (hv g)
  | _ => rfl

theorem callWith_ends (v : Value) (args : List Value) (kwargs : Keywords)
    (m : Moment) :
    Ends (callWith v args kwargs) m
      (fun signal m' => match signal with
        | .next => ∃ w, m'.frame = m.frame.push w
        | .ret _ => False
        | .call callee => m'.frame = m.frame ∧ ∃ g s s', v = .function g ∧
            g.bind args kwargs s = .ok (callee, s'))
      (fun stop m' => m'.frame = m.frame ∧ match stop with
        | .raise _ entries _ => entries = []
        | .fatal cause => ∃ g s, v = .function g ∧ g.bind args kwargs s = .error (.inr cause)
        | .crash => False) := by
  by_cases hv : ∃ g, v = .function g
  · obtain ⟨g, rfl⟩ := hv
    rw [callWith_function, ends_bind, ends_store]
    cases hbind : g.bind args kwargs m.memory.store with
    | ok r => exact ⟨rfl, g, _, r.2, rfl, hbind⟩
    | error e =>
      cases e with
      | inl failure => exact ⟨rfl, rfl⟩
      | inr cause => exact ⟨rfl, g, _, rfl, hbind⟩
  · rw [Ends, callWith_of_ne_function (fun g hg => hv ⟨g, hg⟩)]
    cases Memory.callValue m.frame.globals v args kwargs m.memory with
    | ok w memory => exact ⟨w, rfl⟩
    | error e memory => exact ⟨rfl, rfl⟩

theorem onCall_ends (op : CallOp) (arg : UInt32) (f : Frame) (mem : Memory)
    (h : ((Opcode.call op).effect arg).1 ≤ f.stack.length) :
    Ends (onCall op arg) ⟨f.ahead, mem⟩
      (fun signal m => f.Answers ⟨.call op, arg⟩ signal m.frame)
      (fun s m => f.Stops ⟨.call op, arg⟩ s m.frame) := by
  have heffect := congrArg Prod.fst (effect_call op arg)
  have hdrop : ∀ n ≤ ((Opcode.call op).effect arg).1,
      f.Interrupted ⟨.call op, arg⟩ { f.ahead with stack := f.stack.drop n } :=
    fun n hn => ⟨rfl, rfl, rfl, n, hn, rfl⟩
  simp only [onCall, ends_bind]
  refine (popSpread_ends op _ (by simp only; omega)).mono ?_ ?_
  · rintro spread ⟨g, mem⟩ hg
    obtain rfl : g = _ := hg
    rw [ends_popMany (by simp only [length_drop]; omega)]
    refine ends_orFail (fun kwargs _ => ?_) (fun e _ => ?_)
    · rw [ends_popMany (by simp only [length_drop]; omega)]
      simp only [drop_drop]
      obtain ⟨v, rest, hs⟩ : ∃ v rest, f.stack.drop (spreadCount op +
          2 * (splitArgSpec arg).2.toNat + (splitArgSpec arg).1.toNat) = v :: rest :=
        exists_cons_of_length_pos (by rw [length_drop]; omega)
      have hrest : rest = f.stack.drop ((Opcode.call op).effect arg).1 := by
        rw [heffect, ← drop_drop, hs, drop_one, tail_cons]
      have hv : f.stack[((Opcode.call op).effect arg).1 - 1]? = some v := by
        rw [heffect, Nat.add_sub_cancel, ← head?_drop, hs, head?_cons]
      rw [ends_pop_cons hs]
      refine (callWith_ends v _ kwargs _).mono ?_ ?_
      · rintro signal ⟨g, mem⟩ hg
        cases signal with
        | next =>
          obtain ⟨w, rfl⟩ := hg
          have hkinds : Forall₂ Kind.Holds ((Opcode.call op).leaves arg) [w] := by
            cases op <;> exact forall₂_holds_replicate [w]
          exact .fall rfl rfl ⟨rfl, rfl, rfl, [w], hkinds, congrArg (w :: ·) hrest⟩
        | ret w => exact hg.elim
        | call callee =>
          obtain ⟨rfl, h, s, s', rfl, hbind⟩ := hg
          exact ⟨⟨op, rfl⟩, ⟨rfl, rfl, rfl, [], .nil, hrest⟩, h, _, _, s, s', hv, hbind⟩
      · rintro s ⟨g, mem⟩ hg
        cases s with
        | raise e entries again =>
          obtain rfl : g = _ := hg.1
          exact hrest ▸ hdrop _ le_rfl
        | fatal cause =>
          obtain ⟨h, s, rfl, hbind⟩ := hg.2
          obtain rfl := FunctionOf.eq_tooFewLocals_of_bind hbind
          exact ⟨⟨op, rfl⟩, h, hv⟩
        | crash => exact hg.2.elim
    · simp only [drop_drop]
      exact hdrop _ (by omega)
  · rintro s m ⟨hm, e, rfl⟩
    rw [hm]
    exact hdrop _ (by omega)

theorem jumpTo_ends {op : JumpOp} {arg : UInt32} {f : Frame} {rest : List Value} {target : Nat}
    (taken : List Value) (mem : Memory) (hs : f.stack = taken ++ rest)
    (ht : Instruction.target ⟨.jump op, arg⟩ f.ip = some target)
    (hblock : (Opcode.jump op).movesBlock = false)
    (htaken : taken.length = ((Opcode.jump op).effect arg).1) :
    Ends (jumpTo f.ip (some target))
      ⟨{ f.ahead with stack := rest }, mem⟩ (fun _ m => f.Step ⟨.jump op, arg⟩ m.frame)
      (fun s m => f.Stops ⟨.jump op, arg⟩ s m.frame) := by
  rw [jumpTo, ends_bind, ends_frame]
  dsimp only
  split_ifs with hle
  · have hstack : rest = f.stack.drop ((Opcode.jump op).effect arg).1 := by
      rw [hs, ← htaken, drop_left]
    exact .jump hblock ht hle ⟨rfl, rfl, rfl, [], .nil, hstack⟩
  · exact ⟨target, ht, Nat.lt_of_not_le hle⟩

theorem onJump_ends (op : JumpOp) (arg : UInt32) (f : Frame) (mem : Memory)
    (h : ((Opcode.jump op).effect arg).1 ≤ f.stack.length) :
    Ends (onJump op f.ip (Instruction.target ⟨.jump op, arg⟩ f.ip)) ⟨f.ahead, mem⟩
      (fun _ m => f.Step ⟨.jump op, arg⟩ m.frame)
      (fun s m => f.Stops ⟨.jump op, arg⟩ s m.frame) := by
  cases op with
  | jumpForward | jumpAbsolute => exact jumpTo_ends [] mem rfl rfl rfl rfl
  | popJumpIfFalse =>
    obtain ⟨v, rest, hs⟩ := exists_cons_of_length_pos h
    rw [onJump, ends_bind, ends_popCondition_cons hs]
    split_ifs
    · exact .of_append [v] [] hs .nil
    · exact jumpTo_ends [v] mem hs rfl rfl rfl
  | popJumpIfTrue =>
    obtain ⟨v, rest, hs⟩ := exists_cons_of_length_pos h
    rw [onJump, ends_bind, ends_popCondition_cons hs]
    split_ifs
    · exact jumpTo_ends [v] mem hs rfl rfl rfl
    · exact .of_append [v] [] hs .nil
  | setupExcept | setupLoop => exact .enter rfl rfl rfl
  | forIter =>
    obtain ⟨v, rest, hs⟩ := exists_cons_of_length_pos h
    simp only [onJump, ends_bind, ends_frame, hs]
    cases v with
    | iterator r =>
      rw [ends_bind, ends_store]
      split
      · next w items _ =>
        have hkinds : Forall₂ Kind.Holds ((Opcode.jump .forIter).leaves arg)
            [w, .iterator r] := .cons trivial (.cons ⟨r, rfl⟩ .nil)
        have hstack : w :: f.stack = [w, .iterator r] ++ f.stack.drop 1 := by rw [hs]; rfl
        exact .fall rfl rfl ⟨rfl, rfl, rfl, _, hkinds, hstack⟩
      · exact jumpTo_ends [.iterator r] mem hs rfl rfl rfl
    | _ => exact ⟨rfl, by simp [hs, Kind.Holds]⟩

end Exec

open Exec in
theorem execute_ends (ins : Instruction) (f : Frame) (mem : Memory)
    (h : (ins.opcode.effect ins.arg).1 ≤ f.stack.length) :
    Ends (execute ins f.ip) ⟨f.ahead, mem⟩ (fun signal m => f.Answers ins signal m.frame)
      (fun s m => f.Stops ins s m.frame) := by
  obtain ⟨op, arg⟩ := ins
  cases op with
  | bare op => exact onBare_ends op arg f mem h
  | loadConst =>
    simp only [execute, ends_bind, ends_frame]
    split
    · exact .of_append_any [] [_] rfl
    · next hnone => exact ⟨rfl, hnone⟩
  | name op =>
    simp only [execute, ends_bind, ends_frame]
    split
    · rw [ends_bind]
      exact (onName_ends op arg _ _ f mem h).mono (fun _ _ hm => hm) (fun _ _ hm => hm)
    · next hnone => exact ⟨op, rfl, hnone⟩
  | count op => exact onCount_ends op arg f mem h
  | binaryOp =>
    simp only [execute]
    split
    · obtain ⟨b, a, rest, hs⟩ := exists_two_of_le_length h
      rw [ends_bind, ends_pop_cons hs, ends_bind, ends_pop_cons rfl, ends_bind, ends_store,
        ends_bind]
      refine ends_orFailWith (fun v s _ => ?_) (fun e _ => ?_)
      · exact .of_append_any [b, a] [v] hs
      · exact .of_append [b, a] hs le_rfl
    · next hnone => exact ⟨rfl, hnone⟩
  | compareOp =>
    simp only [execute]
    split
    · obtain ⟨b, a, rest, hs⟩ := exists_two_of_le_length h
      rw [ends_bind, ends_pop_cons hs, ends_bind, ends_pop_cons rfl, ends_bind, ends_store,
        ends_bind]
      refine ends_settle _ ?_ rfl
      rw [ends_bind]
      refine ends_orFail (fun v _ => ?_) (fun e _ => ?_)
      · exact .of_append_any [b, a] [.bool v] hs
      · exact .of_append [b, a] hs le_rfl
    · next hnone => exact ⟨rfl, hnone⟩
  | call op => exact onCall_ends op arg f mem h
  | jump op =>
    simp only [execute, ends_bind]
    exact (onJump_ends op arg f mem h).mono (fun _ _ hm => hm) (fun _ _ hm => hm)

end Bytewright
