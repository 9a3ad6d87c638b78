import Bytewright.Proofs.Equality.Settle
import Bytewright.Proofs.Machine.Crash
import Bytewright.Proofs.Machine.Limits

/-!
# Calls that keep books

The books count the frames and name them, in several places: a call, a return, an exception that
passes a frame, a limit.  A call is cut off by what the books say.  They agree with the frames at
every moment.
-/

namespace Bytewright

open List

/-- What the machine is at: an instruction, a handler search or the way out. -/
inductive Stage where
  | executing
  | unwinding (e : Exception) (index : Nat) (entries : List TraceEntry) (again : Bool)
  | leaving (o : Outcome)

/-- The machine's books: depth and names as it counts them, beside the frames and a log. -/
structure Ledger where
  depth : Nat
  names : List String
  frames : List Frame
  steps : Nat
  log : List (Instruction × Frame)
  memory : Memory
  stage : Stage

namespace Ledger

def fail (b : Ledger) (cause : Fatal) : Ledger :=
  { b with stage := .leaving (.fatal cause b.names.reverse) }

def enter (limits : Limits) (b : Ledger) (callee : Frame) (m : Memory) : Ledger :=
  if limits.callDepth ≤ b.depth then b.fail (.callLimit limits.callDepth callee.code.name)
  else { b with
    depth := b.depth + 1
    names := b.names ++ [callee.code.name]
    frames := callee :: b.frames
    memory := m }

def leave (b : Ledger) : Ledger :=
  match b.frames with
  | [] => b
  | _ :: frames => { b with depth := b.depth - 1, names := b.names.dropLast, frames }

def resume (b : Ledger) (v : Value) : Ledger :=
  match b.frames with
  | [] => { b with stage := .leaving (.value v) }
  | caller :: callers => { b with frames := caller.push v :: callers }

def pass (b : Ledger) (e : Exception) (entries : List TraceEntry) : Ledger :=
  let index := match b.frames with
    | [] => 0
    | caller :: _ => caller.ip - 1
  { b with stage := .unwinding e index entries false }

def perform (limits : Limits) (b : Ledger) (frame : Frame) (callers : List Frame) : Ledger :=
  match frame.code.code[frame.ip]? with
  | none => b.fail (.fellOff frame.code.name)
  | some ins =>
    let b := { b with steps := b.steps + 1 }
    match Run.passedLimit? limits ⟨frame, callers, b.steps, b.memory⟩ with
    | some cause => b.fail cause
    | none =>
      let b := { b with log := (ins, frame) :: b.log }
      match execute ins frame.ip ⟨frame.ahead, b.memory⟩ with
      | .ok signal m =>
        let b := { b with frames := m.frame :: callers, memory := m.memory }
        match signal with
        | .next => b
        | .ret v => b.leave.resume v
        | .call callee => b.enter limits callee b.memory
      | .error (.raise e entries again) m =>
        { b with
          frames := m.frame :: callers
          memory := m.memory
          stage := .unwinding e frame.ip entries again }
      | .error (.fatal cause) m =>
        { b with frames := m.frame :: callers, memory := m.memory }.fail cause
      | .error .crash m =>
        { b with frames := m.frame :: callers, memory := m.memory, stage := .leaving .crashed }

def handle (b : Ledger) (frame : Frame) (callers : List Frame) (e : Exception) (index : Nat)
    (entries : List TraceEntry) (again : Bool) : Ledger :=
  let entries := if again then entries else frame.entry index :: entries
  let (traceback, store) := b.memory.store.newTraceback entries
  match frame.enterHandler? e entries traceback with
  | some frame =>
    { b with frames := frame :: callers, memory := { b.memory with store }, stage := .executing }
  | none => b.leave.pass e entries

/-- One entry in the books. -/
def tick (limits : Limits) (b : Ledger) : Ledger :=
  match b.stage, b.frames with
  | .executing, [] => b
  | .executing, frame :: callers => b.perform limits frame callers
  | .unwinding e _ entries _, [] => { b with stage := .leaving (.raised e entries) }
  | .unwinding e index entries again, frame :: callers =>
    b.handle frame callers e index entries again
  | .leaving _, _ => b.leave

def outcome? (b : Ledger) : Option (Outcome × Memory) :=
  match b.stage, b.frames with
  | .leaving o, [] => some (o, b.memory)
  | _, _ => none

end Ledger

def Machine.openLedger (m : Machine) (f : Value) (args : List Value)
    (kwargs : Keywords) : Ledger :=
  let blank (memory : Memory) (stage : Stage) : Ledger := ⟨0, [], [], 0, [], memory, stage⟩
  match f with
  | .function f =>
    match f.bind args kwargs m.memory.store with
    | .ok (frame, store) =>
      (blank m.memory .executing).enter m.limits frame { m.memory with store }
    | .error (.inl failure) =>
      let (e, store) := m.memory.store.failed failure
      blank { m.memory with store } (.leaving (.raised e []))
    | .error (.inr cause) => (blank m.memory .executing).fail cause
  | _ =>
    match Memory.callValue m.globals f args kwargs m.memory with
    | .ok v memory => blank memory (.leaving (.value v))
    | .error failure memory =>
      let (e, store) := memory.store.failed failure
      blank { memory with store } (.leaving (.raised e []))

/-- The books of a call after `n` ticks. -/
def Machine.ledger (m : Machine) (f : Value) (args : List Value) (kwargs : Keywords)
    (n : Nat) : Ledger :=
  (Ledger.tick m.limits)^[n] (m.openLedger f args kwargs)

namespace Ledger

variable {limits : Limits} {b : Ledger} {frames callers : List Frame} {f : Frame} {steps : Nat}
  {log : List (Instruction × Frame)} {m : Memory} {stage : Stage}

/-! ### Books that agree with the frames -/

/-- The names of the frames, outermost first. -/
def live (b : Ledger) : List String := (b.frames.map (·.code.name)).reverse

def of (frames : List Frame) (steps : Nat) (log : List (Instruction × Frame)) (m : Memory)
    (stage : Stage) : Ledger :=
  ⟨frames.length, (frames.map (·.code.name)).reverse, frames, steps, log, m, stage⟩

theorem fail_of (cause : Fatal) : (of frames steps log m stage).fail cause =
    of frames steps log m (.leaving (.fatal cause (frames.map (·.code.name)))) := by
  simp [fail, of]

theorem enter_of (callee : Frame) (m' : Memory) :
    (of frames steps log m stage).enter limits callee m' =
      if limits.callDepth ≤ frames.length then
        of frames steps log m (.leaving (.fatal (.callLimit limits.callDepth callee.code.name)
          (frames.map (·.code.name))))
      else of (callee :: frames) steps log m' stage := by
  by_cases h : limits.callDepth ≤ frames.length
  · simp [enter, of, fail, h]
  · simp [enter, of, h]

theorem leave_of : (of (f :: frames) steps log m stage).leave = of frames steps log m stage := by
  simp [leave, of]

theorem eq_of {g : Frame} (hg : g.code = f.code) :
    ⟨(f :: callers).length, ((f :: callers).map (·.code.name)).reverse, g :: callers, steps, log, m,
      stage⟩ = of (g :: callers) steps log m stage := by
  simp [of, hg]

def ofRun (r : Run) (log : List (Instruction × Frame)) : Ledger :=
  of (r.frame :: r.callers) r.steps log r.memory .executing

theorem tick_ofRun (limits : Limits) (r : Run) (log : List (Instruction × Frame)) :
    (ofRun r log).tick limits =
      match r.frame.code.code[r.frame.ip]? with
      | none => of (r.frame :: r.callers) r.steps log r.memory
          (.leaving (.fatal (.fellOff r.frame.code.name) r.active))
      | some ins =>
        match Run.passedLimit? limits { r with steps := r.steps + 1 } with
        | some cause => of (r.frame :: r.callers) (r.steps + 1) log r.memory
            (.leaving (.fatal cause r.active))
        | none =>
          let log := (ins, r.frame) :: log
          match execute ins r.frame.ip ⟨r.frame.ahead, r.memory⟩ with
          | .ok .next m => ofRun ⟨m.frame, r.callers, r.steps + 1, m.memory⟩ log
          | .ok (.ret v) m => (of r.callers (r.steps + 1) log m.memory .executing).resume v
          | .ok (.call callee) m =>
            (ofRun ⟨m.frame, r.callers, r.steps + 1, m.memory⟩ log).enter limits callee m.memory
          | .error (.raise e entries again) m =>
            of (m.frame :: r.callers) (r.steps + 1) log m.memory
              (.unwinding e r.frame.ip entries again)
          | .error (.fatal cause) m =>
            of (m.frame :: r.callers) (r.steps + 1) log m.memory
              (.leaving (.fatal cause r.active))
          | .error .crash m =>
            of (m.frame :: r.callers) (r.steps + 1) log m.memory (.leaving .crashed) := by
  change (ofRun r log).perform limits r.frame r.callers = _
  unfold perform
  cases r.frame.code.code[r.frame.ip]? with
  | none => exact fail_of _
  | some ins =>
    dsimp only
    change (match Run.passedLimit? limits { r with steps := r.steps + 1 } with
      | some cause => _
      | none => _) = _
    cases Run.passedLimit? limits { r with steps := r.steps + 1 } with
    | some cause => exact fail_of _
    | none =>
      dsimp only
      change (match execute ins r.frame.ip ⟨r.frame.ahead, r.memory⟩ with
        | .ok signal m => _
        | .error (.raise e entries again) m => _
        | .error (.fatal cause) m => _
        | .error .crash m => _) = _
      cases hm : execute ins r.frame.ip ⟨r.frame.ahead, r.memory⟩ with
      | ok signal m =>
        have hcode : m.frame.code = r.frame.code := (sameUnit_of_execute hm).1.code
        cases signal with
        | next => exact eq_of hcode
        | ret v =>
          refine (congrArg (fun b : Ledger => b.leave.resume v) (eq_of hcode)).trans ?_
          rw [leave_of]
          rfl
        | call callee =>
          exact congrArg (fun b : Ledger => b.enter limits callee m.memory) (eq_of hcode)
      | error stop m =>
        have hcode : m.frame.code = r.frame.code := (leaves_of_execute hm).sameUnit.code
        cases stop with
        | raise e entries again | crash => exact eq_of hcode
        | fatal cause =>
          refine (congrArg (fun b : Ledger => b.fail cause) (eq_of hcode)).trans ?_
          rw [fail_of, map_cons, hcode]
          rfl

theorem tick_unwinding (limits : Limits) (f : Frame) (callers : List Frame) (steps : Nat)
    (log : List (Instruction × Frame)) (m : Memory) (e : Exception) (index : Nat)
    (entries : List TraceEntry) (again : Bool) :
    (of (f :: callers) steps log m (.unwinding e index entries again)).tick limits =
      let traced := if again then entries else f.entry index :: entries
      match f.enterHandler? e traced (m.store.newTraceback traced).1 with
      | some g =>
        ofRun ⟨g, callers, steps, { m with store := (m.store.newTraceback traced).2 }⟩ log
      | none => (of callers steps log m (.unwinding e index entries again)).pass e traced := by
  change (of (f :: callers) steps log m (.unwinding e index entries again)).handle f callers e index
    entries again = _
  unfold handle
  dsimp only
  rw [leave_of]
  generalize (if again = true then entries else f.entry index :: entries) = traced
  change (match f.enterHandler? e traced (m.store.newTraceback traced).1 with
    | some g => _
    | none => _) = _
  cases hg : f.enterHandler? e traced (m.store.newTraceback traced).1 with
  | some g => exact eq_of (Run.code_of_enterHandler? hg)
  | none => rfl

theorem tick_leaving (limits : Limits) (o : Outcome) :
    (of frames steps log m (.leaving o)).tick limits = of frames.tail steps log m (.leaving o) := by
  cases frames with
  | nil => rfl
  | cons f frames => exact leave_of

/-! ### Moves leave the books in order -/

/-- The books agree with the frames and keep within the limits. -/
structure InOrder (limits : Limits) (b : Ledger) : Prop where
  depth_eq : b.depth = b.frames.length
  names_eq : b.names = b.live
  length_le : b.frames.length ≤ limits.callDepth
  stack_le : ∀ p ∈ b.log, p.2.stack.length ≤ limits.stackSize
  log_le : b.log.length ≤ b.steps
  log_le_steps : ∀ n, limits.steps = some n → b.log.length ≤ n

variable {frames' : List Frame} {steps' : Nat} {m' : Memory} {stage' : Stage} {r : Run}
  {p : Outcome × Memory} {o : Outcome}

theorem InOrder.exists_eq_of (h : b.InOrder limits) :
    ∃ frames steps log m stage, b = of frames steps log m stage := by
  obtain ⟨depth, names, frames, steps, log, memory, stage⟩ := b
  refine ⟨frames, steps, log, memory, stage, ?_⟩
  simp only [of, mk.injEq, and_true]
  exact ⟨h.depth_eq, h.names_eq⟩

theorem InOrder.of_le (h : (of frames steps log m stage).InOrder limits)
    (hframes : frames'.length ≤ frames.length) (hsteps : steps ≤ steps') :
    (of frames' steps' log m' stage').InOrder limits where
  depth_eq := rfl
  names_eq := rfl
  length_le := hframes.trans h.length_le
  stack_le := h.stack_le
  log_le := h.log_le.trans hsteps
  log_le_steps := h.log_le_steps

theorem InOrder.execute {ins : Instruction} (h : (ofRun r log).InOrder limits)
    (hlimit : Run.passedLimit? limits { r with steps := r.steps + 1 } = none)
    (hframes : frames.length ≤ r.callers.length + 1) :
    (of frames (r.steps + 1) ((ins, r.frame) :: log) m stage).InOrder limits := by
  obtain ⟨hsteps, hstack⟩ := Run.passedLimit?_eq_none_iff.1 hlimit
  have hlog : log.length ≤ r.steps := h.log_le
  refine ⟨rfl, rfl, hframes.trans h.length_le, ?_, Nat.succ_le_succ hlog, fun n hn => ?_⟩
  · rintro p (_ | ⟨_, hp⟩)
    · exact hstack
    · exact h.stack_le p hp
  · exact (Nat.succ_le_succ hlog).trans (hsteps n hn)

theorem InOrder.enter (h : (of frames steps log m stage).InOrder limits) (callee : Frame) :
    ((of frames steps log m stage).enter limits callee m').InOrder limits := by
  rw [enter_of]
  split_ifs with hdepth
  · exact h.of_le le_rfl le_rfl
  · exact ⟨rfl, rfl, by simpa [of] using hdepth, h.stack_le, h.log_le, h.log_le_steps⟩

theorem InOrder.resume (h : (of frames steps log m stage).InOrder limits) (v : Value) :
    ((of frames steps log m stage).resume v).InOrder limits := by
  cases frames with
  | nil => exact h.of_le le_rfl le_rfl
  | cons caller callers =>
    have hlen : (caller.push v :: callers).length ≤ (caller :: callers).length := le_rfl
    exact h.of_le hlen le_rfl

theorem InOrder.tick (h : b.InOrder limits) : (b.tick limits).InOrder limits := by
  obtain ⟨frames, steps, log, m, stage, rfl⟩ := h.exists_eq_of
  rcases stage with _ | ⟨e, index, entries, again⟩ | o
  · rcases frames with _ | ⟨f, callers⟩
    · exact h
    · have hr : (ofRun ⟨f, callers, steps, m⟩ log).InOrder limits := h
      change ((ofRun ⟨f, callers, steps, m⟩ log).tick limits).InOrder limits
      rw [tick_ofRun]
      split
      · exact h.of_le le_rfl le_rfl
      · split
        · exact h.of_le le_rfl (Nat.le_succ _)
        · next hlimit =>
          dsimp only
          split
          · exact hr.execute hlimit le_rfl
          · exact (hr.execute hlimit (Nat.le_succ _)).resume _
          · exact (hr.execute hlimit le_rfl).enter _
          · exact hr.execute hlimit le_rfl
          · exact hr.execute hlimit le_rfl
          · exact hr.execute hlimit le_rfl
  · rcases frames with _ | ⟨f, callers⟩
    · exact h.of_le le_rfl le_rfl
    · rw [tick_unwinding]
      dsimp only
      split
      · exact h.of_le le_rfl le_rfl
      · exact h.of_le (Nat.le_succ _) le_rfl
  · rw [tick_leaving]
    exact h.of_le (by simp) le_rfl

/-- A fatal outcome names the frames that are live. -/
def NamesLive (b : Ledger) : Prop :=
  ∀ cause active, b.stage = .leaving (.fatal cause active) → active.reverse = b.live

theorem namesLive_of (hstage : ∀ cause active, stage = .leaving (.fatal cause active) →
    active = frames.map (·.code.name)) : (of frames steps log m stage).NamesLive := by
  intro cause active h
  rw [hstage cause active h]
  rfl

theorem namesLive_enter (callee : Frame) (hstage : ∀ o, stage ≠ .leaving o) :
    ((of frames steps log m stage).enter limits callee m').NamesLive := by
  rw [enter_of]
  split_ifs
  · exact namesLive_of fun cause active h => by cases h; rfl
  · exact namesLive_of fun cause active h => absurd h (hstage _)

theorem namesLive_resume (v : Value) : ((of frames steps log m .executing).resume v).NamesLive := by
  cases frames with
  | nil | cons caller callers => exact fun _ _ h => nomatch h

theorem InOrder.namesLive_tick (h : b.InOrder limits) (hb : ∀ o, b.stage ≠ .leaving o) :
    (b.tick limits).NamesLive := by
  obtain ⟨frames, steps, log, m, stage, rfl⟩ := h.exists_eq_of
  rcases stage with _ | ⟨e, index, entries, again⟩ | o
  · rcases frames with _ | ⟨f, callers⟩
    · exact fun _ _ h => nomatch h
    · change ((ofRun ⟨f, callers, steps, m⟩ log).tick limits).NamesLive
      rw [tick_ofRun]
      split
      · exact namesLive_of fun _ _ h => by cases h; rfl
      · next ins _ =>
        split
        · exact namesLive_of fun _ _ h => by cases h; rfl
        · dsimp only
          split
          · exact fun _ _ h => nomatch h
          · exact namesLive_resume _
          · exact namesLive_enter _ nofun
          · exact fun _ _ h => nomatch h
          · next cause m' hm =>
            have hcode : m'.frame.code = f.code := (leaves_of_execute hm).sameUnit.code
            refine namesLive_of fun _ _ h => ?_
            cases h
            rw [map_cons, hcode]
            rfl
          · exact fun _ _ h => nomatch h
  · rcases frames with _ | ⟨f, callers⟩
    · exact fun _ _ h => nomatch h
    · rw [tick_unwinding]
      dsimp only
      split <;> exact fun _ _ h => nomatch h
  · exact absurd rfl (hb o)

/-! ### Books and runs -/

/-- The books are those of this progress. -/
def Follows (b : Ledger) : Progress → Prop
  | .running r => ∃ log, b = ofRun r log
  | .ended o m => ∃ frames steps log, b = of frames steps log m (.leaving o)

theorem exists_follows_unwind_of {e : Exception}
    (hescape : ∀ traced, ∃ n, ((tick limits)^[n] ((of callers steps log m stage).pass e
      traced)).Follows (Run.escape e steps m traced callers))
    (f : Frame) (index : Nat) (entries : List TraceEntry) (again : Bool) :
    ∃ n, ((tick limits)^[n] (of (f :: callers) steps log m
      (.unwinding e index entries again))).Follows
        (Run.unwind e steps m f callers index entries again) := by
  have htick := tick_unwinding limits f callers steps log m e index entries again
  rw [Run.unwind_eq]
  dsimp only at htick ⊢
  generalize (if again = true then entries else f.entry index :: entries) = traced at htick ⊢
  cases hg : f.enterHandler? e traced (m.store.newTraceback traced).1 with
  | some g =>
    rw [hg] at htick
    exact ⟨1, log, htick⟩
  | none =>
    rw [hg] at htick
    obtain ⟨n, hn⟩ := hescape traced
    refine ⟨n + 1, ?_⟩
    rw [Function.iterate_succ_apply, htick]
    exact hn

theorem exists_follows_escape (limits : Limits) (e : Exception) (steps : Nat)
    (log : List (Instruction × Frame)) (m : Memory) (callers : List Frame) (stage : Stage)
    (traced : List TraceEntry) :
    ∃ n, ((tick limits)^[n] ((of callers steps log m stage).pass e traced)).Follows
      (Run.escape e steps m traced callers) := by
  induction callers generalizing stage traced with
  | nil => exact ⟨1, [], steps, log, rfl⟩
  | cons c callers ih => exact exists_follows_unwind_of (ih stage) c (c.ip - 1) traced false

theorem exists_follows_advance (limits : Limits) (r : Run) (log : List (Instruction × Frame)) :
    ∃ n, ((tick limits)^[n + 1] (ofRun r log)).Follows (r.advance limits) := by
  simp only [Function.iterate_succ_apply, tick_ofRun]
  unfold Run.advance
  dsimp only
  cases hi : r.frame.code.code[r.frame.ip]? with
  | none => exact ⟨0, _, _, _, rfl⟩
  | some ins =>
    dsimp only
    cases Run.passedLimit? limits { r with steps := r.steps + 1 } with
    | some cause => exact ⟨0, _, _, _, rfl⟩
    | none =>
      dsimp only
      change ∃ n, Follows _ (match execute ins r.frame.ip ⟨r.frame.ahead, r.memory⟩ with
        | .ok signal m => _
        | .error (.raise e entries again) m => _
        | .error (.fatal cause) m => _
        | .error .crash m => _)
      cases execute ins r.frame.ip ⟨r.frame.ahead, r.memory⟩ with
      | ok signal m =>
        cases signal with
        | next => exact ⟨0, _, rfl⟩
        | ret v =>
          refine ⟨0, ?_⟩
          dsimp only [Run.leave]
          cases r.callers with
          | nil => exact ⟨_, _, _, rfl⟩
          | cons c callers => exact ⟨_, rfl⟩
        | call callee =>
          refine ⟨0, ?_⟩
          dsimp only [ofRun, Function.iterate_zero, id_eq, Run.enter]
          rw [enter_of, length_cons]
          by_cases hdepth : limits.callDepth ≤ r.callers.length + 1
          · rw [if_pos hdepth, if_pos hdepth]
            exact ⟨_, _, _, rfl⟩
          · rw [if_neg hdepth, if_neg hdepth]
            exact ⟨_, rfl⟩
      | error stop m =>
        cases stop with
        | raise e entries again =>
          exact exists_follows_unwind_of (exists_follows_escape limits e _ _ _ _ .executing) ..
        | fatal cause | crash => exact ⟨0, _, _, _, rfl⟩

theorem tick_of_outcome? (h : b.outcome? = some p) : b.tick limits = b := by
  obtain ⟨depth, names, frames, steps, log, memory, stage⟩ := b
  rcases stage with _ | _ | o
  · cases h
  · cases h
  · rcases frames with _ | ⟨f, frames⟩
    · rfl
    · cases h

theorem stage_of_outcome? {m : Memory} (h : b.outcome? = some (o, m)) : b.stage = .leaving o := by
  unfold outcome? at h
  split at h
  · next hstage _ =>
    cases h
    exact hstage
  · cases h

theorem stage_tick_of_leaving (h : b.stage = .leaving o) : (b.tick limits).stage = .leaving o := by
  obtain ⟨depth, names, frames, steps, log, memory, stage⟩ := b
  obtain rfl : stage = .leaving o := h
  cases frames with
  | nil => rfl
  | cons f frames => rfl

theorem iterate_of_outcome? (h : b.outcome? = some p) (n : Nat) : (tick limits)^[n] b = b :=
  Function.iterate_fixed (tick_of_outcome? h) n

theorem outcome?_unique {q : Outcome × Memory} {n k : Nat}
    (hn : ((tick limits)^[n] b).outcome? = some p) (hk : ((tick limits)^[k] b).outcome? = some q) :
    p = q := by
  have hle {p q : Outcome × Memory} {n k : Nat} (hnk : n ≤ k)
      (hn : ((tick limits)^[n] b).outcome? = some p)
      (hk : ((tick limits)^[k] b).outcome? = some q) : p = q := by
    obtain ⟨j, rfl⟩ := Nat.exists_eq_add_of_le' hnk
    rw [Function.iterate_add_apply, iterate_of_outcome? hn, hn] at hk
    exact Option.some.inj hk
  rcases Nat.le_total n k with h | h
  · exact hle h hn hk
  · exact (hle h hk hn).symm

theorem outcome?_iterate_leaving (limits : Limits) (o : Outcome) (frames : List Frame) (steps : Nat)
    (log : List (Instruction × Frame)) (m : Memory) :
    ((tick limits)^[frames.length] (of frames steps log m (.leaving o))).outcome? =
      some (o, m) := by
  induction frames with
  | nil => rfl
  | cons f frames ih =>
    rw [length_cons, Function.iterate_succ_apply, tick_leaving]
    exact ih

theorem exists_iterate_go (limits : Limits) (fuel : Nat) (r : Run)
    (log : List (Instruction × Frame)) :
    match Run.go limits fuel r with
    | some p => ∃ n, ((tick limits)^[n] (ofRun r log)).outcome? = some p
    | none => ∃ n r' log', fuel ≤ n ∧ (tick limits)^[n] (ofRun r log) = ofRun r' log' := by
  induction fuel generalizing r log with
  | zero => exact ⟨0, r, log, le_rfl, rfl⟩
  | succ fuel ih =>
    obtain ⟨n, hn⟩ := exists_follows_advance limits r log
    rw [Run.go]
    cases hr : r.advance limits with
    | running r' =>
      rw [hr] at hn
      obtain ⟨log', hlog'⟩ := hn
      specialize ih r' log'
      dsimp only
      cases hgo : Run.go limits fuel r' with
      | some p =>
        rw [hgo] at ih
        obtain ⟨k, hk⟩ := ih
        exact ⟨k + (n + 1), by rw [Function.iterate_add_apply, hlog', hk]⟩
      | none =>
        rw [hgo] at ih
        obtain ⟨k, r'', log'', hle, hk⟩ := ih
        exact ⟨k + (n + 1), r'', log'', by omega, by rw [Function.iterate_add_apply, hlog', hk]⟩
    | ended o m =>
      rw [hr] at hn
      obtain ⟨frames, steps, log', hb⟩ := hn
      exact ⟨frames.length + (n + 1), by
        rw [Function.iterate_add_apply, hb, outcome?_iterate_leaving]⟩

theorem exists_go_iff :
    (∃ fuel, Run.go limits fuel r = some p) ↔
      ∃ n, ((tick limits)^[n] (ofRun r [])).outcome? = some p := by
  refine ⟨fun ⟨fuel, h⟩ => ?_, fun ⟨n, hn⟩ => ?_⟩
  · simpa only [h] using exists_iterate_go limits fuel r []
  · have hiterate := exists_iterate_go limits n r []
    cases hgo : Run.go limits n r with
    | some q =>
      rw [hgo] at hiterate
      obtain ⟨k, hk⟩ := hiterate
      exact ⟨n, by rw [hgo, outcome?_unique hn hk]⟩
    | none =>
      rw [hgo] at hiterate
      obtain ⟨k, r', log', hle, hk⟩ := hiterate
      obtain ⟨j, rfl⟩ := Nat.exists_eq_add_of_le' hle
      rw [Function.iterate_add_apply, iterate_of_outcome? hn] at hk
      rw [hk] at hn
      cases hn

end Ledger

/-! ### Calls -/

namespace Machine

variable {m : Machine} {f : Value} {args : List Value} {kwargs : Keywords}

theorem openLedger_of_other (m : Machine) {f : Value} (args : List Value)
    (kwargs : Keywords) (hf : ∀ g, f ≠ .function g) :
    m.openLedger f args kwargs =
      match Memory.callValue m.globals f args kwargs m.memory with
      | .ok v memory => .of [] 0 [] memory (.leaving (.value v))
      | .error failure memory => .of [] 0 []
        { memory with store := (memory.store.failed failure).2 }
        (.leaving (.raised (memory.store.failed failure).1 [])) := by
  cases f with
  | function g => exact absurd rfl (hf g)
  | _ => rfl

theorem openLedger_cases (m : Machine) (f : Value) (args : List Value)
    (kwargs : Keywords) :
    (∃ o mem, m.openLedger f args kwargs = .of [] 0 [] mem (.leaving o) ∧
      (∀ cause active, o = .fatal cause active → active = []) ∧
      ∀ fuel, m.callResult fuel f args kwargs = some (o, mem)) ∨
    ∃ frame mem, 0 < m.limits.callDepth ∧
      m.openLedger f args kwargs = .ofRun { frame, memory := mem } [] ∧
      ∀ fuel, m.callResult fuel f args kwargs =
        Run.go m.limits fuel { frame, memory := mem } := by
  by_cases hf : ∃ g, f = .function g
  · obtain ⟨g, rfl⟩ := hf
    cases hbind : g.bind args kwargs m.memory.store with
    | error stop =>
      left
      rcases stop with failure | cause
      · exact ⟨.raised (m.memory.store.failed failure).1 [],
          { m.memory with store := (m.memory.store.failed failure).2 },
          by simp only [openLedger, hbind]; rfl, by simp,
          fun fuel => by simp only [callResult, hbind]⟩
      · exact ⟨.fatal cause [], m.memory, by simp only [openLedger, hbind]; rfl,
          fun _ _ h => by cases h; rfl, fun fuel => by simp only [callResult, hbind]⟩
    | ok p =>
      obtain ⟨frame, store⟩ := p
      have hopen : m.openLedger (.function g) args kwargs = (Ledger.of [] 0 [] m.memory
          .executing).enter m.limits frame { m.memory with store } := by
        simp only [openLedger, hbind]
        rfl
      rw [Ledger.enter_of, length_nil] at hopen
      by_cases hdepth : m.limits.callDepth = 0
      · rw [if_pos (Nat.le_zero.2 hdepth)] at hopen
        exact Or.inl ⟨_, _, hopen, fun _ _ h => by cases h; rfl,
          fun fuel => by simp only [callResult, hbind, hdepth, if_true]; rfl⟩
      · rw [if_neg fun h => hdepth (Nat.le_zero.1 h)] at hopen
        exact Or.inr ⟨frame, _, Nat.pos_of_ne_zero hdepth, hopen,
          fun fuel => by simp only [callResult, hbind, hdepth, if_false]⟩
  · left
    have hopen := m.openLedger_of_other args kwargs fun g hg => hf ⟨g, hg⟩
    have hresult := fun fuel => m.callResult_of_other fuel args kwargs fun g hg => hf ⟨g, hg⟩
    cases hcall : Memory.callValue m.globals f args kwargs m.memory with
    | ok v memory | error failure memory =>
      rw [hcall] at hopen
      exact ⟨_, _, hopen, by simp, fun fuel => by rw [hresult, hcall]⟩

theorem exists_callResult_iff {p : Outcome × Memory} :
    (∃ fuel, m.callResult fuel f args kwargs = some p) ↔
      ∃ n, (m.ledger f args kwargs n).outcome? = some p := by
  rcases m.openLedger_cases f args kwargs with ⟨o, mem, hopen, -, hresult⟩ |
    ⟨frame, mem, -, hopen, hresult⟩
  · have hended : (m.openLedger f args kwargs).outcome? = some (o, mem) := by rw [hopen]; rfl
    simp only [ledger, Ledger.iterate_of_outcome? hended, hended, hresult, exists_const]
  · simp only [ledger, hopen, hresult]
    exact Ledger.exists_go_iff

theorem inOrder_ledger (m : Machine) (f : Value) (args : List Value)
    (kwargs : Keywords) (n : Nat) : (m.ledger f args kwargs n).InOrder m.limits := by
  induction n with
  | zero =>
    rcases m.openLedger_cases f args kwargs with ⟨o, mem, hopen, -⟩ | ⟨frame, mem, hdepth, hopen, -⟩
    · rw [ledger, Function.iterate_zero, id_eq, hopen]
      exact ⟨rfl, rfl, Nat.zero_le _, nofun, le_rfl, fun n _ => Nat.zero_le n⟩
    · rw [ledger, Function.iterate_zero, id_eq, hopen]
      exact ⟨rfl, rfl, hdepth, nofun, le_rfl, fun n _ => Nat.zero_le n⟩
  | succ n ih =>
    rw [ledger, Function.iterate_succ_apply']
    exact ih.tick

theorem stage_ledger_of_le {o : Outcome} {j n : Nat} (hjn : j ≤ n)
    (h : (m.ledger f args kwargs j).stage = .leaving o) :
    (m.ledger f args kwargs n).stage = .leaving o := by
  induction n, hjn using Nat.le_induction with
  | base => exact h
  | succ n _ ih =>
    rw [ledger, Function.iterate_succ_apply']
    exact Ledger.stage_tick_of_leaving ih

theorem exists_live_of_fatal {n : Nat} {cause : Fatal} {active : List String}
    (h : (m.ledger f args kwargs n).stage = .leaving (.fatal cause active)) :
    ∃ k ≤ n, (∀ j < k, ∀ o, (m.ledger f args kwargs j).stage ≠ .leaving o) ∧
      (m.ledger f args kwargs k).stage = .leaving (.fatal cause active) ∧
      active.reverse = (m.ledger f args kwargs k).live := by
  induction n with
  | zero =>
    refine ⟨0, le_rfl, nofun, h, ?_⟩
    rcases m.openLedger_cases f args kwargs with ⟨o, mem, hopen, hactive, -⟩ |
      ⟨frame, mem, -, hopen, -⟩
    · rw [ledger, Function.iterate_zero, id_eq, hopen] at h ⊢
      rw [hactive cause active (Stage.leaving.inj h)]
      rfl
    · rw [ledger, Function.iterate_zero, id_eq, hopen] at h
      cases h
  | succ n ih =>
    by_cases hleaving : ∃ o, (m.ledger f args kwargs n).stage = .leaving o
    · obtain ⟨o, ho⟩ := hleaving
      rw [stage_ledger_of_le (Nat.le_succ n) ho] at h
      obtain ⟨k, hk, hfirst⟩ := ih (ho.trans h)
      exact ⟨k, hk.trans (Nat.le_succ n), hfirst⟩
    · refine ⟨n + 1, le_rfl, fun j hj o ho => ?_, h, ?_⟩
      · exact hleaving ⟨o, stage_ledger_of_le (Nat.le_of_lt_succ hj) ho⟩
      · have hnames := (m.inOrder_ledger f args kwargs n).namesLive_tick
          fun o ho => hleaving ⟨o, ho⟩
        rw [ledger, Function.iterate_succ_apply'] at h ⊢
        exact hnames cause active h

theorem exists_callResult_of_steps {n : Nat} (hn : m.limits.steps = some n) :
    ∃ p, m.callResult (n + 1) f args kwargs = some p := by
  rcases m.openLedger_cases f args kwargs with ⟨o, mem, -, -, hresult⟩ | ⟨frame, mem, -, -, hresult⟩
  · exact ⟨_, hresult _⟩
  · rw [hresult]
    exact Run.go_of_steps hn (Nat.zero_le n) (by simp)

/-- Limits only cut calls off.  At every moment of a call the books agree with its frames, and
neither the number of frames nor the number of instructions that were executed nor the stack of any
of these is beyond its limit; a call that is cut off names its live frames, a call with a limit on
its instructions ends, and a call that is not cut off is the same under higher limits.  It ends
without returning when it comes to a comparison that has no answer, and in no other case. -/
theorem limits_only_cut_off (m : Machine) (f : Value) (args : List Value)
    (kwargs : Keywords) :
    (∀ p, (∃ fuel, m.callResult fuel f args kwargs = some p) ↔
      ∃ n, (m.ledger f args kwargs n).outcome? = some p) ∧
    (∀ n, (m.ledger f args kwargs n).InOrder m.limits) ∧
    (∀ n cause active mem,
      (m.ledger f args kwargs n).outcome? = some (.fatal cause active, mem) →
      ∃ k ≤ n, (∀ j < k, ∀ o, (m.ledger f args kwargs j).stage ≠ .leaving o) ∧
        (m.ledger f args kwargs k).stage = .leaving (.fatal cause active) ∧
        active.reverse = (m.ledger f args kwargs k).live) ∧
    (∀ n, m.limits.steps = some n → ∃ p, m.callResult (n + 1) f args kwargs = some p) ∧
    (∀ l', m.limits.Within l' →
      (∀ fuel o mem, m.callResult fuel f args kwargs = some (o, mem) → ¬o.AtLimit) →
      ∀ fuel, ({ m with limits := l' } : Machine).callResult fuel f args kwargs =
        m.callResult fuel f args kwargs) ∧
    ((∃ fuel mem, m.callResult fuel f args kwargs = some (.crashed, mem)) ↔
      ∃ r ins, m.ComesTo f args kwargs r ∧ r.frame.code.code[r.frame.ip]? = some ins ∧
        Run.passedLimit? m.limits { r with steps := r.steps + 1 } = none ∧
        ins.settles r.frame.stack r.memory.store = false) :=
  ⟨fun _ => exists_callResult_iff, m.inOrder_ledger f args kwargs,
    fun _ _ _ _ h => exists_live_of_fatal (Ledger.stage_of_outcome? h),
    fun _ hn => exists_callResult_of_steps hn, fun _ hl hm => callResult_of_within hl hm,
    crashes_iff⟩

def recursion : Function where
  id := 0
  code :=
    { stackSize := 1
      code := [⟨.name .loadGlobal, 0⟩, ⟨.call .callFunction, 0⟩, ⟨.bare .returnValue, 0⟩]
      names := ["again"]
      fileName := "<raw>"
      name := "again"
      firstLine := 0 }
  defaults := []
  globals := ⟨0⟩
  closure := []

def twoFrames : Machine where
  limits := { callDepth := 2, steps := some 9 }
  memory := { store := { scopes := #[[("again", .function recursion)]] } }

def pause : Function :=
  { recursion with
    code := { recursion.code with
      code := [⟨.loadConst, 0⟩, ⟨.bare .returnValue, 0⟩]
      consts := [.none] } }

def oneFrame : Machine :=
  { twoFrames with limits := { callDepth := 1, steps := some 2, stackSize := 1 } }

/-- The recursion is cut off with both frames live and named, within the number of instructions;
the function that returns is not cut off, and runs in the same way with no such limits. -/
theorem limits_cut_off_recursion :
    (∃ n k mem, (twoFrames.ledger (.function recursion) [] [] n).outcome? =
        some (.fatal (.callLimit 2 "again") ["again", "again"], mem) ∧
      k ≤ n ∧ (twoFrames.ledger (.function recursion) [] [] k).live = ["again", "again"]) ∧
    (∃ p, twoFrames.callResult 10 (.function recursion) [] [] = some p) ∧
    ∀ fuel, ({ oneFrame with limits := {} } : Machine).callResult fuel (.function pause) [] [] =
      oneFrame.callResult fuel (.function pause) [] [] := by
  obtain ⟨hends, -, hfatal, hsteps, -⟩ :=
    limits_only_cut_off twoFrames (.function recursion) [] []
  have hcut : ∃ mem, twoFrames.callResult 4 (.function recursion) [] [] =
      some (.fatal (.callLimit 2 "again") ["again", "again"], mem) := ⟨_, rfl⟩
  obtain ⟨mem, hmem⟩ := hcut
  obtain ⟨n, hn⟩ := (hends _).1 ⟨4, hmem⟩
  obtain ⟨k, hk, -, -, hlive⟩ := hfatal n _ _ mem hn
  refine ⟨⟨n, k, mem, hn, hk, hlive.symm⟩, hsteps 9 rfl, ?_⟩
  obtain ⟨-, -, -, -, hsame, -⟩ := limits_only_cut_off oneFrame (.function pause) [] []
  refine hsame {} ⟨by decide, nofun, by decide⟩ fun fuel o mem h => ?_
  have hreturns (fuel : Nat) : ∃ mem, oneFrame.callResult (fuel + 2) (.function pause) [] [] =
      some (.value .none, mem) := ⟨_, rfl⟩
  rcases fuel with _ | _ | fuel
  · cases h
  · cases h
  · obtain ⟨mem', hmem'⟩ := hreturns fuel
    rw [hmem'] at h
    cases h
    exact id

def selfComparison : Function :=
  { selfInsertion with
    code := { selfInsertion.code with
      code := [⟨.name .loadGlobal, 0⟩, ⟨.name .loadGlobal, 0⟩, ⟨.compareOp, 2⟩] } }

/-- Within four instructions neither call returns.  The map is held while it is compared with
itself, or the comparison comes to no answer at any depth. -/
theorem selfComparison_crashes :
    (∃ fuel mem, selfHolding.callResult fuel (.function selfInsertion) [] [] =
      some (.crashed, mem)) ∧
    (∃ fuel mem, selfHolding.callResult fuel (.function selfComparison) [] [] =
      some (.crashed, mem)) ∧
    ∀ n, selfHolding.memory.store.settlesUpTo none n (.dict ⟨0⟩) (.dict ⟨0⟩) = false := by
  refine ⟨crashes_iff.2 ⟨_, ⟨.bare .storeSubscr, 0⟩, comesTo_selfInsertionRun, rfl, rfl, by decide⟩,
    crashes_iff.2 ?_, fun n => ?_⟩
  · let f : Frame :=
      { selfInsertionRun.frame with code := selfComparison.code, stack := [], ip := 0 }
    refine ⟨⟨{ f with stack := [.dict ⟨0⟩, .dict ⟨0⟩], ip := 2 }, [], 2, selfHolding.memory⟩,
      ⟨.compareOp, 2⟩, ⟨selfComparison, f, _, rfl, rfl, by decide, ?_⟩, rfl, rfl, by decide⟩
    exact .tail (.tail .refl rfl) rfl
  · rw [← Bool.not_eq_true]
    intro hn
    have hsettles := (Store.settles_iff_exists _ none _ _).2 ⟨n, hn⟩
    revert hsettles
    decide

end Machine

end Bytewright
