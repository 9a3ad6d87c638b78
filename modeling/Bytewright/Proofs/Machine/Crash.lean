import Bytewright.Proofs.Machine.Local
import Bytewright.Proofs.Machine.Traceback

/-!
# Instructions and calls that crash

The instructions that compare nothing cannot crash: if one did, it would crash as well above enough
further values to find its operands, and what it does then is known.
-/

namespace Bytewright

open Exec

/-- The comparison that the instruction makes of the values on the stack, if there is one, comes to
an answer. -/
def Instruction.settles (ins : Instruction) (stack : List Value) (s : Store) : Bool :=
  match ins.opcode, stack with
  | .bare .storeMap, key :: _ :: .dict r :: _ => s.pairSettles r key
  | .bare .binarySubscr, key :: obj :: _ => s.itemSettles obj key
  | .bare .storeSubscr, key :: obj :: _ :: _ => s.setItemSettles obj key
  | .compareOp, b :: a :: _ => (CompareOp.ofIndex? ins.arg.toNat).elim true (s.compareSettles · a b)
  | _, _ => true

variable {ins : Instruction} {f : Frame} {memory : Memory} {m : Moment}
  {α : Type}

theorem compares_of_crash (hm : execute ins f.ip ⟨f.ahead, memory⟩ = .error .crash m) :
    ins.opcode.compares = true := by
  by_cases hblock : ins.opcode.movesBlock = true
  · exact (ends_iff.1 (ends_of_movesBlock hblock)).2 _ _ hm
  · rw [Bool.not_eq_true] at hblock
    have hlocal := local_execute ins f.ip hblock
      (List.replicate (ins.opcode.effect ins.arg).1 .none) f.blocks ⟨f.ahead, memory⟩
    rw [hm] at hlocal
    generalize hresult : execute ins f.ip (Moment.embed _ _ _) = result at hlocal
    cases hlocal with
    | crash =>
      refine (ends_iff.1 (execute_ends ins (f.embed (List.replicate _ .none) f.blocks) memory
        ?_)).2 _ _ hresult
      simp [Frame.embed]

/-- The computation crashes at the moment. -/
def Exec.Crashes (x : Exec α) (m : Moment) : Prop := ∃ m', x m = .error .crash m'

theorem crashes_pop {g : Value → Exec α} :
    (pop >>= g).Crashes m ↔ ∃ v rest, m.frame.stack = v :: rest ∧
      (g v).Crashes { m with frame := { m.frame with stack := rest } } := by
  cases hs : m.frame.stack <;> simp [Crashes, Bind.bind, EStateM.bind, pop, hs]

theorem crashes_settle {b : Store → Bool} {g : Store → Exec α}
    (hg : ∀ s, ¬(g s).Crashes m) :
    (store >>= fun s => settle (b s) >>= fun _ => g s).Crashes m ↔ b m.memory.store = false := by
  cases hb : b m.memory.store with
  | false => exact iff_of_true ⟨m, by simp [Bind.bind, EStateM.bind, store, settle, hb]⟩ rfl
  | true =>
    refine iff_of_false ?_ (by simp)
    rintro ⟨m', hm⟩
    refine hg m.memory.store ⟨m', ?_⟩
    simpa [Bind.bind, EStateM.bind, store, settle, hb] using hm

/-- Nothing crashes after a comparison has come to an answer: the answer is used, or it is a
failure. -/
theorem not_crashes_answer {r : Except Failure α} {k : α → Exec Unit} {signal : Signal}
    (hk : ∀ a, ¬(k a).Crashes m) :
    ¬(orFail r >>= fun a => k a >>= fun _ => pure signal).Crashes m := by
  rintro ⟨m', hm⟩
  cases r with
  | error e => cases hm
  | ok a =>
    refine hk a ⟨m', ?_⟩
    change EStateM.bind (k a) _ m = _ at hm
    unfold EStateM.bind at hm
    cases hka : k a m with
    | ok =>
      rw [hka] at hm
      cases hm
    | error =>
      rw [hka] at hm
      cases hm
      rfl

theorem not_crashes_push (v : Value) : ¬(push v).Crashes m := fun h => nomatch h.choose_spec

theorem not_crashes_setStore (s : Store) : ¬(setStore s).Crashes m := fun h => nomatch h.choose_spec

theorem not_crashes_fatal (c : Fatal) : ¬(fatal c : Exec α).Crashes m :=
  fun h => nomatch h.choose_spec

theorem storeMap_crashes_iff (arg : UInt32) (f : Frame) (memory : Memory) :
    (execute ⟨.bare .storeMap, arg⟩ f.ip).Crashes ⟨f.ahead, memory⟩ ↔
      Instruction.settles ⟨.bare .storeMap, arg⟩ f.stack memory.store = false := by
  have hframe {g : Frame → Exec Signal} {m : Moment} :
      (frame >>= g).Crashes m ↔ (g m.frame).Crashes m := Iff.rfl
  have hset (s : Store) {m : Moment} : ¬(setStore s >>= fun _ => pure Signal.next).Crashes m :=
    fun h => nomatch h.choose_spec
  simp only [execute, onBare, crashes_pop, hframe]
  rcases f.stack with _ | ⟨key, _ | ⟨v, _ | ⟨top, below⟩⟩⟩
  · simp [Instruction.settles]
  · simp [Instruction.settles]
  · simp [Instruction.settles, not_crashes_fatal]
  · cases top with
    | dict r => simp [-bind_pure_comp, Instruction.settles, crashes_settle fun s => hset _]
    | _ => simp [Instruction.settles, not_crashes_fatal]

/-- An instruction crashes exactly when the comparison that it makes does not come to an answer. -/
theorem execute_crashes_iff (ins : Instruction) (f : Frame) (memory : Memory) :
    (execute ins f.ip).Crashes ⟨f.ahead, memory⟩ ↔ ins.settles f.stack memory.store = false := by
  obtain ⟨op, arg⟩ := ins
  by_cases hop : op.compares = true
  · unfold Opcode.compares at hop
    split at hop
    · exact storeMap_crashes_iff arg f memory
    · simp only [execute, onBare, crashes_pop,
        crashes_settle fun s => not_crashes_answer not_crashes_push]
      rcases f.stack with _ | ⟨key, _ | ⟨obj, rest⟩⟩ <;> simp [Instruction.settles]
    · simp only [execute, onBare, crashes_pop,
        crashes_settle fun s => not_crashes_answer not_crashes_setStore]
      rcases f.stack with _ | ⟨key, _ | ⟨obj, _ | ⟨v, rest⟩⟩⟩ <;> simp [Instruction.settles]
    · simp only [execute]
      cases hindex : CompareOp.ofIndex? arg.toNat with
      | none =>
        have hsettles : Instruction.settles ⟨.compareOp, arg⟩ f.stack memory.store = true := by
          rcases f.stack with _ | ⟨b, _ | ⟨a, rest⟩⟩ <;> simp [Instruction.settles, hindex]
        simp [hsettles, not_crashes_fatal]
      | some op =>
        simp only [crashes_pop,
          crashes_settle fun s => not_crashes_answer fun a => not_crashes_push (.bool a)]
        rcases f.stack with _ | ⟨b, _ | ⟨a, rest⟩⟩ <;> simp [Instruction.settles, hindex]
    · cases hop
  · refine iff_of_false (fun h => hop (compares_of_crash h.choose_spec)) ?_
    unfold Instruction.settles
    split <;> simp_all [Opcode.compares]

/-! ### Calls -/

theorem Run.advance_crashes_iff {limits : Limits} {r : Run} :
    (∃ mem, r.advance limits = .ended .crashed mem) ↔
      ∃ ins, r.frame.code.code[r.frame.ip]? = some ins ∧
        passedLimit? limits { r with steps := r.steps + 1 } = none ∧
        ins.settles r.frame.stack r.memory.store = false := by
  constructor
  · rintro ⟨mem, h⟩
    have hended : r.proceed = .ended .crashed mem := by
      rcases advance_eq_proceed limits r with hproceed | ⟨_, _, _, -, hcut⟩
      · rw [← hproceed, h]
      · cases h.symm.trans hcut
    revert hended
    refine proceed_cases (motive := fun p => p = .ended .crashed mem → _) r
      (fun _ h => nomatch h) (fun _ _ _ h => nomatch h) (fun _ _ _ _ h => ?_)
      (fun _ _ _ _ h => nomatch h) (fun _ e entries again moment _ h => ?_)
      (fun _ _ _ _ h => nomatch h) fun ins moment hdoes _ => ?_
    · rw [leave] at h
      split at h <;> cases h
    · have hcarries := carries_unwind e (r.steps + 1) moment.memory moment.frame r.callers
        r.frame.ip entries again
      rw [h] at hcarries
      cases hcarries
    · obtain ⟨hi, hm⟩ := hdoes
      refine ⟨ins, hi, ?_, (execute_crashes_iff ins r.frame r.memory).1 ⟨moment, hm⟩⟩
      rw [advance_eq, if_neg (by simp [hi])] at h
      split at h
      · cases h
      · next hpassed => exact hpassed
  · rintro ⟨ins, hi, hpassed, hsettles⟩
    obtain ⟨moment, hm⟩ := (execute_crashes_iff ins r.frame r.memory).2 hsettles
    refine ⟨moment.memory, ?_⟩
    rw [advance_eq, if_neg (by simp [hi]), hpassed]
    simp only [proceed, hi, hm, entering]

theorem Machine.crashes_iff {m : Machine} {f : Value} {args : List Value}
    {kwargs : Keywords} :
    (∃ fuel mem, m.callResult fuel f args kwargs = some (.crashed, mem)) ↔
      ∃ r ins, m.ComesTo f args kwargs r ∧ r.frame.code.code[r.frame.ip]? = some ins ∧
        Run.passedLimit? m.limits { r with steps := r.steps + 1 } = none ∧
        ins.settles r.frame.stack r.memory.store = false := by
  constructor
  · rintro ⟨fuel, mem, h⟩
    rcases exists_ended_of_callResult h with ⟨-, hne, -⟩ | ⟨r, hcomes, hended⟩
    · exact absurd rfl hne
    · obtain ⟨ins, hcrash⟩ := Run.advance_crashes_iff.1 ⟨mem, hended⟩
      exact ⟨r, ins, hcomes, hcrash⟩
  · rintro ⟨r, ins, hcomes, hcrash⟩
    obtain ⟨mem, hended⟩ := Run.advance_crashes_iff.2 ⟨ins, hcrash⟩
    obtain ⟨fuel, hfuel⟩ := hcomes.exists_callResult ⟨1, Run.go_of_ended hended 0⟩
    exact ⟨fuel, mem, hfuel⟩

/-! ### Maps that hold themselves -/

/-- A machine with a map that holds itself, at an empty map. -/
def selfHolding : Machine where
  limits := { steps := some 4 }
  memory :=
    { store :=
      { dicts := #[[(.dict ⟨1⟩, .dict ⟨0⟩)], []]
        scopes := #[[("d", .dict ⟨0⟩)]] } }

/-- Sets the item of the map at the map to the map. -/
def selfInsertion : Function where
  id := 0
  code :=
    { stackSize := 3
      code := [⟨.name .loadGlobal, 0⟩, ⟨.name .loadGlobal, 0⟩, ⟨.name .loadGlobal, 0⟩,
        ⟨.bare .storeSubscr, 0⟩]
      names := ["d"]
      fileName := "<raw>"
      name := "raw"
      firstLine := 0 }
  globals := ⟨0⟩

def selfInsertionRun : Run where
  frame :=
    { code := selfInsertion.code, fast := [], names := ⟨0⟩, globals := ⟨0⟩, closure := []
      stack := [.dict ⟨0⟩, .dict ⟨0⟩, .dict ⟨0⟩], ip := 3 }
  steps := 3
  memory := selfHolding.memory

theorem comesTo_selfInsertionRun :
    selfHolding.ComesTo (.function selfInsertion) [] [] selfInsertionRun :=
  ⟨selfInsertion, { selfInsertionRun.frame with stack := [], ip := 0 }, _, rfl, rfl, by decide,
    .tail (.tail (.tail .refl rfl) rfl) rfl⟩

end Bytewright
