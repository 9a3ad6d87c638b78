import Bytewright.Proofs.Machine.Handler

/-!
# Tracebacks

The lines that are written and those that are still to be written, for the frames that wait, make
up the whole traceback at every moment.  A handler that raises again what it caught does not write a
line for its own frame, which is there already.
-/

namespace Bytewright

/-! ### Live frames -/

def Frame.waitingEntry (f : Frame) : TraceEntry := f.entry (f.ip - 1)

/-- The frame has executed a call last. -/
def Frame.Waits (f : Frame) : Prop :=
  0 < f.ip ∧ ∃ op arg, f.code.code[f.ip - 1]? = some ⟨.call op, arg⟩

namespace Run

/-- The entries of the callers, outermost first. -/
def waitingEntries (callers : List Frame) : List TraceEntry :=
  (callers.map Frame.waitingEntry).reverse

/-- The entries of all frames, the running one last. -/
def traceback (r : Run) : List TraceEntry :=
  waitingEntries r.callers ++ [r.frame.entry r.frame.ip]

/-- The instruction at `r'` raises again what the handler at `r` was given. -/
inductive Reraises (r r' : Run) : Prop
  | endFinally {kind e tb : Value} {rest rest' : List Value} {arg : UInt32}
      (hstack : r.frame.stack = kind :: e :: tb :: rest)
      (hi : r'.frame.code.code[r'.frame.ip]? = some ⟨.bare .endFinally, arg⟩)
      (hstack' : r'.frame.stack = kind :: e :: tb :: rest')
  | bare (hi : r'.frame.code.code[r'.frame.ip]? = some ⟨.count .raiseVarargs, 0⟩)
      (hhandled : r'.frame.handled = r.frame.handled)
  | kind {kind e tb : Value} {rest rest' : List Value}
      (hstack : r.frame.stack = kind :: e :: tb :: rest)
      (hi : r'.frame.code.code[r'.frame.ip]? = some ⟨.count .raiseVarargs, 3⟩)
      (hstack' : r'.frame.stack = tb :: e :: kind :: rest')
  | instance_ {kind e tb : Value} {rest rest' : List Value}
      (hstack : r.frame.stack = kind :: e :: tb :: rest)
      (hi : r'.frame.code.code[r'.frame.ip]? = some ⟨.count .raiseVarargs, 3⟩)
      (hstack' : r'.frame.stack = tb :: .none :: e :: rest')

/-- The exception leaves the call, once all handlers that get it have raised it again. -/
inductive Passes (limits : Limits) : Progress → Exception → List TraceEntry → Memory → Prop
  | escapes {e tb m} : Passes limits (.ended (.raised e tb) m) e tb m
  | reraised {r r' e tb m} (hsteps : Relation.ReflTransGen (Step limits) r r')
      (hcallers : r'.callers = r.callers) (hraise : Reraises r r')
      (h : Passes limits (r'.advance limits) e tb m) : Passes limits (.running r) e tb m

end Run

/-- The call comes to this run. -/
def Machine.ComesTo (m : Machine) (f : Value) (args : List Value) (kwargs : Keywords)
    (r : Run) : Prop :=
  ∃ g frame store, f = .function g ∧ g.bind args kwargs m.memory.store = .ok (frame, store) ∧
    m.limits.callDepth ≠ 0 ∧
    Relation.ReflTransGen (Run.Step m.limits) { frame, memory := { m.memory with store } } r

/-! ### Frames that wait -/

variable {ins : Instruction} {fuel : Nat}

theorem call_of_execute {index : Nat} {callee : Frame} {m m' : Moment}
    (h : execute ins index m = .ok (.call callee) m') :
    (∃ op, ins.opcode = .call op) ∧ m'.frame.ip = m.frame.ip ∧ m'.frame.code = m.frame.code := by
  by_cases hop : ∃ op, ins.opcode = .call op
  · refine ⟨hop, ?_⟩
    obtain ⟨op, arg⟩ := ins
    obtain ⟨op, rfl⟩ := hop
    obtain ⟨hunit, hip, -⟩ := (Exec.ends_iff.1 (Exec.keeps_onCall op arg m)).1 _ _ h
    exact ⟨hip, hunit.code⟩
  · have hstays := execute_stays ins index fun op h => hop ⟨op, h⟩
    exact ((Exec.ends_iff.1 (hstays m)).1 _ _ h).2.elim

theorem Frame.carries_waits (code : List Instruction) :
    Frame.Carries code (fun _ => True) Frame.Waits where
  fresh _ _ := trivial
  next _ _ _ _ := trivial
  call {f ins callee memory m} hcode _ hi hm := by
    obtain ⟨⟨op, hop⟩, hip, hunit⟩ := call_of_execute hm
    obtain ⟨_, arg⟩ := ins
    obtain rfl := hop
    have hback : m.frame.ip - 1 = f.ip := by rw [hip]; rfl
    refine ⟨by rw [hip]; exact Nat.succ_pos _, op, arg, ?_⟩
    rw [hback, hunit, hcode]
    exact hi
  ret _ _ := trivial

theorem Frame.handles_waits (code : List Instruction) :
    Frame.Handles code (fun _ => True) Frame.Waits (fun _ => True) where
  raise _ _ _ _ := trivial
  wait _ := trivial
  handle _ _ _ := trivial

variable {limits : Limits} {r r' : Run} {e e' : Exception} {whole : List TraceEntry}
  {steps : Nat} {m m' : Memory} {f : Frame} {callers : List Frame} {index : Nat}
  {entries tb traced : List TraceEntry} {again : Bool} {p : Progress} {o : Outcome}
  {moment : Moment}

namespace Run

theorem waits_of_steps (h : Relation.ReflTransGen (Step limits) { frame := f, memory := m } r) :
    ∀ c ∈ r.callers, c.Waits := by
  have hholds (code : List Instruction) : r.Holds code (fun _ => True) Frame.Waits := by
    induction h with
    | refl => exact ⟨fun _ => trivial, nofun⟩
    | tail _ hstep ih =>
      exact ih.advance (Frame.carries_waits code) (fun _ => Frame.handles_waits code) hstep
  exact fun c hc => (hholds c.code.code).callers c hc rfl

/-! ### The way out -/

/-- A handler has the exception; with the entries of the waiting frames its traceback is `whole`. -/
def Caught (e : Exception) (whole : List TraceEntry) (r : Run) : Prop :=
  ∃ traced id rest, r.frame.handled = some (e, traced) ∧
    r.frame.stack = .exceptionType e.kind :: .exception e :: .traceback id traced :: rest ∧
    waitingEntries r.callers ++ traced = whole

end Run

def Progress.Carries (e : Exception) (whole : List TraceEntry) : Progress → Prop
  | .ended o _ => o = .raised e whole
  | .running r => r.Caught e whole

namespace Run

theorem caught_of_enterHandler? {g : Frame} {s : Store}
    (h : f.enterHandler? e traced (s.newTraceback traced).1 = some g) :
    Caught e (waitingEntries callers ++ traced) ⟨g, callers, steps, m⟩ := by
  unfold Frame.enterHandler? at h
  split at h
  · cases h
  · cases h
    exact ⟨traced, _, _, rfl, rfl, rfl⟩

theorem carries_unwind (e : Exception) (steps : Nat) (m : Memory) (f : Frame)
    (callers : List Frame) (index : Nat) (entries : List TraceEntry) (again : Bool) :
    (unwind e steps m f callers index entries again).Carries e (waitingEntries callers ++
      if again then entries else f.entry index :: entries) := by
  induction callers generalizing f index entries again with
  | nil =>
    rw [unwind_eq]
    dsimp only
    generalize (if again = true then entries else f.entry index :: entries) = traced
    split
    · next g hg => exact caught_of_enterHandler? hg
    · rfl
  | cons c callers ih =>
    rw [unwind_eq]
    dsimp only
    generalize (if again = true then entries else f.entry index :: entries) = traced
    split
    · next g hg => exact caught_of_enterHandler? hg
    · have hc := ih c (c.ip - 1) traced false
      rw [if_neg Bool.false_ne_true] at hc
      rw [escape, waitingEntries, List.map_cons, List.reverse_cons, List.append_assoc]
      exact hc

theorem normalize_kind (s : Store) (e : Exception) :
    s.normalize (.exceptionType e.kind) (.exception e) = .ok (e, s) := by
  simp [Store.normalize, ExceptionOf.isOf]

open Exec in
theorem Reraises.exists_raise {id : Nat} {rest : List Value} (h : Reraises r r')
    (hhandled : r.frame.handled = some (e, traced)) (hstack : r.frame.stack =
      .exceptionType e.kind :: .exception e :: .traceback id traced :: rest) :
    ∃ ins m, r'.Does ins (.error (.raise e traced true) m) := by
  obtain ⟨⟨code, fast, names, globals, closure, stack, blocks, handled, ip⟩, callers, steps, m⟩ :=
    r'
  -- Both kinds of raise that look at kind and exception make one of the two.
  have hnormal {frame : Frame} : (orFailWith (m.store.normalize (.exceptionType e.kind)
      (.exception e)) >>= fun e => (raiseAgain e traced : Exec Signal)) ⟨frame, m⟩ =
      .error (.raise e traced true) ⟨frame, m⟩ := by
    rw [normalize_kind]
    rfl
  cases h with
  | endFinally hs hi hs' | kind hs hi hs' =>
    obtain ⟨rfl, rfl, rfl, -⟩ : _ ∧ _ ∧ _ ∧ _ := by simpa using hs.symm.trans hstack
    obtain rfl := hs'
    exact ⟨_, _, hi, hnormal⟩
  | bare hi hh =>
    obtain rfl : handled = some (e, traced) := hh.trans hhandled
    exact ⟨_, _, hi, rfl⟩
  | instance_ hs hi hs' =>
    obtain ⟨rfl, rfl, rfl, -⟩ : _ ∧ _ ∧ _ ∧ _ := by simpa using hs.symm.trans hstack
    obtain rfl := hs'
    exact ⟨_, _, hi, rfl⟩

theorem advance_of_raise (hraise : r.Does ins (.error (.raise e entries again) moment))
    (limits : Limits) :
    (∃ cause active m, r.advance limits = .ended (.fatal cause active) m) ∨
      r.advance limits = unwind e (r.steps + 1) moment.memory moment.frame r.callers r.frame.ip
        entries again := by
  rcases advance_eq_proceed limits r with h | ⟨cause, active, m, -, h⟩
  · right
    rw [h, proceed, hraise.1]
    dsimp only
    rw [hraise.2]
  · exact Or.inl ⟨cause, active, m, h⟩

theorem Caught.carries_advance (h : r.Caught e whole) (hcallers : r'.callers = r.callers)
    (hraise : Reraises r r') (limits : Limits) :
    (∃ cause active m, r'.advance limits = .ended (.fatal cause active) m) ∨
      (r'.advance limits).Carries e whole := by
  obtain ⟨traced, id, rest, hhandled, hstack, hwhole⟩ := h
  obtain ⟨ins, moment, hdoes⟩ := hraise.exists_raise hhandled hstack
  refine (advance_of_raise hdoes limits).imp_right fun hadvance => ?_
  rw [hadvance, ← hwhole, ← hcallers]
  exact carries_unwind _ _ _ _ _ _ _ true

theorem Passes.eq_of_carries (h : Passes limits p e' tb m)
    (hp : (∃ cause active m, p = .ended (.fatal cause active) m) ∨ p.Carries e whole) :
    e' = e ∧ tb = whole := by
  induction h with
  | escapes =>
    rcases hp with ⟨cause, active, m, hp⟩ | hp
    · cases hp
    · exact Outcome.raised.inj hp
  | reraised _ hcallers hraise _ ih =>
    rcases hp with ⟨cause, active, m, hp⟩ | hp
    · cases hp
    · exact ih (Caught.carries_advance hp hcallers hraise limits)

theorem carries_advance_of_raise (hraise : r.Does ins (.error (.raise e entries false) moment))
    (limits : Limits) :
    (∃ cause active m, r.advance limits = .ended (.fatal cause active) m) ∨
      (r.advance limits).Carries e r.traceback := by
  obtain ⟨hunit, -, huntraced⟩ := leaves_of_execute hraise.2
  have hentry : moment.frame.entry r.frame.ip = r.frame.entry r.frame.ip := by
    simp only [Frame.entry, hunit.code]
  refine (advance_of_raise hraise limits).imp_right fun hadvance => ?_
  rw [hadvance, traceback, ← hentry, ← huntraced e entries rfl]
  exact carries_unwind _ _ _ _ _ _ _ false

/-! ### The end of the run -/

theorem exists_go_of_steps {q : Outcome × Memory} (h : Relation.ReflTransGen (Step limits) r r')
    (hr' : ∃ fuel, go limits fuel r' = some q) : ∃ fuel, go limits fuel r = some q := by
  induction h using Relation.ReflTransGen.head_induction_on with
  | refl => exact hr'
  | head hstep _ ih =>
    obtain ⟨fuel, hfuel⟩ := ih
    exact ⟨fuel + 1, by rw [go_of_running hstep, hfuel]⟩

theorem Passes.exists_go (h : Passes limits p e tb m) (hr : r.advance limits = p) :
    ∃ fuel, go limits fuel r = some (.raised e tb, m) := by
  induction h generalizing r with
  | escapes => exact ⟨1, go_of_ended hr 0⟩
  | reraised hsteps _ _ _ ih =>
    obtain ⟨fuel, hfuel⟩ := exists_go_of_steps hsteps (ih rfl)
    exact ⟨fuel + 1, by rw [go_of_running hr, hfuel]⟩

theorem exists_raise_of_advance (h : r.advance limits = .ended (.raised e tb) m) :
    ∃ ins entries again moment, r.Does ins (.error (.raise e entries again) moment) := by
  rcases advance_eq_proceed limits r with hproceed | ⟨cause, active, m', -, hcut⟩
  swap
  · rw [h] at hcut
    cases hcut
  rw [hproceed] at h
  revert h
  refine proceed_cases (motive := fun p => p = .ended (.raised e tb) m → _) r
    (fun _ h => nomatch h) (fun _ _ _ h => nomatch h) (fun ins v moment _ h => ?_)
    (fun _ _ _ _ h => nomatch h) (fun ins e' entries again moment hdoes h => ?_)
    (fun _ _ _ _ h => nomatch h) fun _ _ _ h => nomatch h
  · rw [leave] at h
    split at h <;> cases h
  · have hcarries := carries_unwind e' (r.steps + 1) moment.memory moment.frame r.callers
      r.frame.ip entries again
    rw [h] at hcarries
    obtain ⟨rfl, -⟩ := Outcome.raised.inj hcarries
    exact ⟨ins, entries, again, moment, hdoes⟩

theorem exists_ended_of_go (h : go limits fuel r = some (o, m)) :
    ∃ r', Relation.ReflTransGen (Step limits) r r' ∧ r'.advance limits = .ended o m := by
  induction fuel generalizing r with
  | zero => cases h
  | succ fuel ih =>
    rw [go] at h
    cases hr : r.advance limits with
    | running r' =>
      rw [hr] at h
      obtain ⟨r'', hsteps, hended⟩ := ih h
      exact ⟨r'', .head hr hsteps, hended⟩
    | ended o' m' =>
      rw [hr] at h
      cases h
      exact ⟨r, .refl, hr⟩

end Run

namespace Machine

variable {m : Machine} {f : Value} {args : List Value} {kwargs : Keywords}

theorem not_comesTo_of_bind {g : Function} {stop : Failure ⊕ Fatal}
    (h : g.bind args kwargs m.memory.store = .error stop) (r : Run) :
    ¬m.ComesTo (.function g) args kwargs r := by
  rintro ⟨g', frame, store, hg, hbind, -⟩
  cases hg
  rw [h] at hbind
  cases hbind

theorem exists_ended_of_callResult {o : Outcome} {mem : Memory}
    (h : m.callResult fuel f args kwargs = some (o, mem)) :
    ((∀ r, ¬m.ComesTo f args kwargs r) ∧ o ≠ .crashed ∧ ∀ e tb, o = .raised e tb → tb = []) ∨
      ∃ r, m.ComesTo f args kwargs r ∧ r.advance m.limits = .ended o mem := by
  by_cases hf : ∃ g, f = .function g
  · obtain ⟨g, rfl⟩ := hf
    cases hbind : g.bind args kwargs m.memory.store with
    | error stop =>
      refine Or.inl ⟨not_comesTo_of_bind hbind, ?_⟩
      rcases stop with failure | cause <;> simp only [callResult, hbind] at h <;> cases h <;> simp
    | ok p =>
      obtain ⟨frame, store⟩ := p
      by_cases hdepth : m.limits.callDepth = 0
      · simp only [callResult, hbind, hdepth, if_true] at h
        cases h
        refine Or.inl ⟨?_, by simp, by simp⟩
        rintro r ⟨_, _, _, _, _, hne, _⟩
        exact hne hdepth
      · rw [callResult_of_bind hdepth hbind] at h
        obtain ⟨r, hsteps, hended⟩ := Run.exists_ended_of_go h
        exact Or.inr ⟨r, ⟨g, frame, store, rfl, hbind, hdepth, hsteps⟩, hended⟩
  · left
    constructor
    · rintro r ⟨g, _, _, hg, _⟩
      exact hf ⟨g, hg⟩
    · rw [m.callResult_of_other fuel args kwargs fun g hg => hf ⟨g, hg⟩] at h
      split at h <;> cases h <;> simp

theorem ComesTo.exists_callResult {r : Run} {o : Outcome} {mem : Memory}
    (h : m.ComesTo f args kwargs r) (hr : ∃ fuel, Run.go m.limits fuel r = some (o, mem)) :
    ∃ fuel, m.callResult fuel f args kwargs = some (o, mem) := by
  obtain ⟨g, frame, store, rfl, hbind, hdepth, hsteps⟩ := h
  obtain ⟨fuel, hfuel⟩ := Run.exists_go_of_steps hsteps hr
  exact ⟨fuel, by rw [callResult_of_bind hdepth hbind, hfuel]⟩

/-- Tracebacks are exact.  When an exception is raised that is not raised again, and leaves all
frames, or is caught only by handlers that raise it again, then it is the exception that the call
ends with, and its traceback has one line for each frame that was live when it was raised: at the
place of the instruction that raised it, and at the calls that the other frames wait for.  Every
exception that a call ends with comes from such an instruction, or from one that raises again, or
the call has come to no frame at all. -/
theorem tracebacks_are_exact (m : Machine) (f : Value) (args : List Value)
    (kwargs : Keywords) :
    (∀ r ins e entries moment e' tb mem, m.ComesTo f args kwargs r →
      r.frame.code.code[r.frame.ip]? = some ins →
      execute ins r.frame.ip ⟨r.frame.ahead, r.memory⟩ =
        .error (.raise e entries false) moment →
      Run.Passes m.limits (r.advance m.limits) e' tb mem →
      e' = e ∧ tb = r.traceback ∧ (∀ c ∈ r.callers, c.Waits) ∧
        ∃ fuel, m.callResult fuel f args kwargs = some (.raised e r.traceback, mem)) ∧
    ∀ fuel e tb mem, m.callResult fuel f args kwargs = some (.raised e tb, mem) →
      ((∀ r, ¬m.ComesTo f args kwargs r) ∧ tb = []) ∨
      ∃ r ins entries again moment, m.ComesTo f args kwargs r ∧
        r.frame.code.code[r.frame.ip]? = some ins ∧
        execute ins r.frame.ip ⟨r.frame.ahead, r.memory⟩ =
          .error (.raise e entries again) moment ∧
        r.advance m.limits = .ended (.raised e tb) mem := by
  constructor
  · intro r ins e entries moment e' tb mem hcomes hi hraise hpasses
    obtain ⟨rfl, rfl⟩ := hpasses.eq_of_carries (Run.carries_advance_of_raise ⟨hi, hraise⟩ m.limits)
    have ⟨_, _, _, _, _, _, hsteps⟩ := hcomes
    exact ⟨rfl, rfl, Run.waits_of_steps hsteps, hcomes.exists_callResult (hpasses.exists_go rfl)⟩
  · intro fuel e tb mem h
    refine (exists_ended_of_callResult h).imp (fun hend => ⟨hend.1, hend.2.2 e tb rfl⟩) ?_
    rintro ⟨r, hcomes, hended⟩
    obtain ⟨ins, entries, again, moment, hi, hm⟩ := Run.exists_raise_of_advance hended
    exact ⟨r, ins, entries, again, moment, hcomes, hi, hm, hended⟩

def troubled : Function where
  id := 0
  code :=
    { stackSize := 4
      code := [⟨.jump .setupExcept, 2⟩, ⟨.name .loadGlobal, 0⟩, ⟨.count .raiseVarargs, 1⟩,
        ⟨.bare .endFinally, 0⟩, ⟨.loadConst, 0⟩, ⟨.bare .returnValue, 0⟩]
      names := ["Trouble"]
      fileName := "<raw>"
      name := "troubled"
      firstLine := 20
      consts := [.none] }
  defaults := []
  globals := ⟨0⟩
  closure := []

def relaying : Function :=
  { troubled with
    id := 1
    code := { troubled.code with
      code := [⟨.jump .setupExcept, 3⟩, ⟨.name .loadGlobal, 0⟩, ⟨.call .callFunction, 0⟩,
        ⟨.bare .returnValue, 0⟩, ⟨.bare .popTop, 0⟩, ⟨.count .raiseVarargs, 0⟩]
      names := ["troubled"]
      name := "relaying"
      firstLine := 10 } }

def troubledMemory (nextId : Nat) : Memory :=
  { store :=
    { scopes := #[[("troubled", .function troubled), ("Trouble", .exceptionType "Trouble")]]
      nextId } }

def frameOf (f : Function) (ip : Nat) (stack : List Value) (blocks : List Block)
    (handled : Option (Exception × List TraceEntry)) : Frame :=
  ⟨f.code, [], ⟨0⟩, ⟨0⟩, [], stack, blocks, handled, ip⟩

/-- The exception is caught and raised again in both frames, and the traceback has one line for
each of them. -/
theorem relaying_traceback :
    ∃ fuel e mem, callResult fuel { memory := troubledMemory 0 } (.function relaying) [] [] =
      some (.raised e [⟨"<raw>", "relaying", 10⟩, ⟨"<raw>", "troubled", 20⟩], mem) := by
  let limits : Limits := {}
  let e : Exception := ⟨0, "Trouble", []⟩
  let inner : TraceEntry := ⟨"<raw>", "troubled", 20⟩
  let outer : TraceEntry := ⟨"<raw>", "relaying", 10⟩
  let waiting := frameOf relaying 3 [] [⟨.except, 4, 0⟩] none
  let raising : Run := ⟨frameOf troubled 2 [.exceptionType "Trouble"] [⟨.except, 3, 0⟩] none,
    [waiting], 5, troubledMemory 0⟩
  let caught : Run := ⟨frameOf troubled 3 [.exceptionType "Trouble", .exception e,
    .traceback 1 [inner]] [] (some (e, [inner])), [waiting], 6, troubledMemory 2⟩
  let caughtAgain : Run := ⟨frameOf relaying 4 [.exceptionType "Trouble", .exception e,
    .traceback 2 [outer, inner]] [] (some (e, [outer, inner])), [], 7, troubledMemory 3⟩
  let last : Run := ⟨frameOf relaying 5 [.exception e, .traceback 2 [outer, inner]] []
    (some (e, [outer, inner])), [], 8, troubledMemory 3⟩
  have hcomes : ComesTo { memory := troubledMemory 0 } (.function relaying) [] [] raising := by
    refine ⟨relaying, frameOf relaying 0 [] [] none, (troubledMemory 0).store, rfl, rfl,
      by decide, ?_⟩
    let r₁ : Run := ⟨frameOf relaying 1 [] [⟨.except, 4, 0⟩] none, [], 1, troubledMemory 0⟩
    let r₂ : Run := ⟨frameOf relaying 2 [.function troubled] [⟨.except, 4, 0⟩] none, [], 2,
      troubledMemory 0⟩
    let r₃ : Run := ⟨frameOf troubled 0 [] [] none, [waiting], 3, troubledMemory 0⟩
    let r₄ : Run := ⟨frameOf troubled 1 [] [⟨.except, 3, 0⟩] none, [waiting], 4, troubledMemory 0⟩
    exact .head (b := r₁) rfl (.head (b := r₂) rfl (.head (b := r₃) rfl (.head (b := r₄) rfl
      (.single rfl))))
  have hraise : execute ⟨.count .raiseVarargs, 1⟩ 2 ⟨raising.frame.ahead, raising.memory⟩ =
      .error (.raise e [] false) ⟨frameOf troubled 3 [] [⟨.except, 3, 0⟩] none,
        troubledMemory 1⟩ := rfl
  have hlast : Run.Passes limits (last.advance limits) e [outer, inner] (troubledMemory 3) :=
    .escapes
  have hcaughtAgain : Run.Passes limits (caught.advance limits) e [outer, inner]
      (troubledMemory 3) :=
    .reraised (r := caughtAgain) (.single rfl) rfl (.bare rfl rfl) hlast
  have hpasses : Run.Passes limits (raising.advance limits) e [outer, inner] (troubledMemory 3) :=
    .reraised (r := caught) .refl rfl (.endFinally rfl rfl rfl) hcaughtAgain
  obtain ⟨-, -, -, fuel, hfuel⟩ := (tracebacks_are_exact { memory := troubledMemory 0 }
    (.function relaying) [] []).1 raising _ e [] _ e _ _ hcomes rfl hraise hpasses
  exact ⟨fuel, e, _, hfuel⟩

end Machine

end Bytewright
