import Mathlib
import Bytewright.Machine.Step

/-!
# How operations of the machine end

There is one rule for each of the operations that instructions are made of, so that what an
instruction does can be read off its parts without looking into the machine.
-/

namespace Bytewright.Exec

variable {α β : Type} {m : Moment} {post post' : α → Moment → Prop}
  {stop stop' : Stop → Moment → Prop}

/-- However `x` ends when started at `m`, `post` holds of its answer or `stop` of why it stops. -/
def Ends (x : Exec α) (m : Moment) (post : α → Moment → Prop) (stop : Stop → Moment → Prop) :
    Prop :=
  match x m with
  | .ok a m => post a m
  | .error s m => stop s m

theorem Ends.mono {x : Exec α} (h : Ends x m post stop) (hpost : ∀ a m, post a m → post' a m)
    (hstop : ∀ s m, stop s m → stop' s m) : Ends x m post' stop' := by
  unfold Ends at h ⊢
  split at h
  · exact hpost _ _ h
  · exact hstop _ _ h

theorem ends_iff {x : Exec α} :
    Ends x m post stop ↔
      (∀ a m', x m = .ok a m' → post a m') ∧ ∀ s m', x m = .error s m' → stop s m' := by
  cases h : x m <;> simp [Ends, h]

/-! ### Composition -/

@[simp] theorem ends_pure (a : α) : Ends (pure a) m post stop ↔ post a m := Iff.rfl

@[simp] theorem ends_bind (x : Exec β) (g : β → Exec α) :
    Ends (x >>= g) m post stop ↔ Ends x m (fun b m => Ends (g b) m post stop) stop := by
  cases h : x m <;> simp [Ends, bind, EStateM.bind, h]

theorem Ends.bind {x : Exec β} {g : β → Exec α} {p : β → Moment → Prop} (hx : Ends x m p stop)
    (hg : ∀ b m', p b m' → Ends (g b) m' post stop) : Ends (x >>= g) m post stop :=
  (ends_bind x g).2 (hx.mono hg fun _ _ hm => hm)

@[simp] theorem ends_map (x : Exec β) (g : β → α) :
    Ends (g <$> x) m post stop ↔ Ends x m (fun b m => post (g b) m) stop := by
  cases h : x m <;> simp [Ends, Functor.map, EStateM.map, h]

/-! ### Frame and store -/

section FrameAndStore

variable {post₁ : Unit → Moment → Prop} {v : Value} {rest : List Value}

@[simp] theorem ends_frame {post : Frame → Moment → Prop} :
    Ends frame m post stop ↔ post m.frame m := Iff.rfl

@[simp] theorem ends_store {post : Store → Moment → Prop} :
    Ends store m post stop ↔ post m.memory.store m := Iff.rfl

@[simp] theorem ends_setFrame (f : Frame) :
    Ends (setFrame f) m post₁ stop ↔ post₁ () { m with frame := f } := Iff.rfl

@[simp] theorem ends_setStore (s : Store) :
    Ends (setStore s) m post₁ stop ↔
      post₁ () { m with memory := { m.memory with store := s } } := Iff.rfl

@[simp] theorem ends_push (v : Value) :
    Ends (push v) m post₁ stop ↔ post₁ () { m with frame := m.frame.push v } := Iff.rfl

theorem ends_pop_cons {post : Value → Moment → Prop} (h : m.frame.stack = v :: rest) :
    Ends pop m post stop ↔ post v { m with frame := { m.frame with stack := rest } } := by
  simp only [Ends, pop, h]

theorem ends_popMany {post : List Value → Moment → Prop} {n : Nat}
    (h : n ≤ m.frame.stack.length) :
    Ends (popMany n) m post stop ↔ post (m.frame.stack.take n).reverse
      { m with frame := { m.frame with stack := m.frame.stack.drop n } } := by
  simp only [Ends, popMany, if_neg (Nat.not_lt.2 h)]

theorem ends_popCondition_cons {post : Bool → Moment → Prop} (h : m.frame.stack = v :: rest) :
    Ends popCondition m post stop ↔ post (m.memory.store.truthy v)
      { m with frame := { m.frame with stack := rest } } := by
  rw [popCondition, ends_bind, ends_pop_cons h]
  exact Iff.rfl

end FrameAndStore

/-! ### Stops -/

@[simp] theorem ends_fatal (cause : Fatal) :
    Ends (fatal cause) m post stop ↔ stop (.fatal cause) m := Iff.rfl

@[simp] theorem ends_raise (e : Exception) :
    Ends (raise e) m post stop ↔ stop (.raise e [] false) m := Iff.rfl

@[simp] theorem ends_raiseAgain (e : Exception) (entries : List TraceEntry) :
    Ends (raiseAgain e entries) m post stop ↔ stop (.raise e entries true) m := Iff.rfl

@[simp] theorem ends_fail (f : Failure) :
    Ends (fail f) m post stop ↔ stop (.raise (m.memory.store.failed f).1 [] false)
      { m with memory := { m.memory with store := (m.memory.store.failed f).2 } } := Iff.rfl

theorem ends_settle {post : Unit → Moment → Prop} (b : Bool) (hpost : post () m)
    (hstop : stop .crash m) : Ends (settle b) m post stop := by
  cases b with
  | false => exact hstop
  | true => exact hpost

theorem ends_orFail {r : Except Failure α} (hok : ∀ a, r = .ok a → post a m)
    (hfail : ∀ f, r = .error f → stop (.raise (m.memory.store.failed f).1 [] false)
      { m with memory := { m.memory with store := (m.memory.store.failed f).2 } }) :
    Ends (orFail r) m post stop := by
  cases r with
  | ok a => exact hok a rfl
  | error f => exact hfail f rfl

theorem ends_orFailWith {r : Except Failure (α × Store)}
    (hok : ∀ a s, r = .ok (a, s) → post a { m with memory := { m.memory with store := s } })
    (hfail : ∀ f, r = .error f → stop (.raise (m.memory.store.failed f).1 [] false)
      { m with memory := { m.memory with store := (m.memory.store.failed f).2 } }) :
    Ends (orFailWith r) m post stop := by
  cases r with
  | ok r =>
    obtain ⟨a, s⟩ := r
    exact hok a s rfl
  | error f => exact hfail f rfl

end Bytewright.Exec
