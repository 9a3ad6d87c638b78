import Bytewright.Proofs.Machine.Advance

/-!
# Runs without limits

Whether a run is cut off depends on how many instructions were executed, how many frames are active
and how high the stack is, and on nothing else.
-/

namespace Bytewright

/-- A limit has cut the run off. -/
def Outcome.AtLimit : Outcome → Prop
  | .fatal cause _ => cause.ofLimit = true
  | _ => False

namespace Run

variable {r r' r'' : Run} {o o' : Outcome} {m m' : Memory} {limits : Limits}

/-- One instruction, without limits. -/
def proceed (r : Run) : Progress :=
  match r.frame.code.code[r.frame.ip]? with
  | none => r.cutOff (.fellOff r.frame.code.name)
  | some ins =>
    match execute ins r.frame.ip ⟨r.frame.ahead, r.memory⟩ with
    | .ok .next m => .running ⟨m.frame, r.callers, r.steps + 1, m.memory⟩
    | .ok (.ret v) m => leave ⟨m.frame, r.callers, r.steps + 1, m.memory⟩ v
    | .ok (.call callee) m => .running ⟨callee, m.frame :: r.callers, r.steps + 1, m.memory⟩
    | .error (.raise e entries again) m =>
      unwind e (r.steps + 1) m.memory m.frame r.callers r.frame.ip entries again
    | .error (.fatal cause) m => .ended (.fatal cause r.active) m.memory
    | .error .crash m => .ended .crashed m.memory

/-- The next instruction is `ins`, and it comes to `x`. -/
abbrev Does (r : Run) (ins : Instruction) (x : EStateM.Result Stop Moment Signal) : Prop :=
  r.frame.code.code[r.frame.ip]? = some ins ∧ execute ins r.frame.ip ⟨r.frame.ahead, r.memory⟩ = x

theorem proceed_cases {motive : Progress → Prop} (r : Run)
    (hoff : r.frame.code.code[r.frame.ip]? = none →
      motive (r.cutOff (.fellOff r.frame.code.name)))
    (hnext : ∀ ins m, r.Does ins (.ok .next m) →
      motive (.running ⟨m.frame, r.callers, r.steps + 1, m.memory⟩))
    (hret : ∀ ins v m, r.Does ins (.ok (.ret v) m) →
      motive (leave ⟨m.frame, r.callers, r.steps + 1, m.memory⟩ v))
    (hcall : ∀ ins callee m, r.Does ins (.ok (.call callee) m) →
      motive (.running ⟨callee, m.frame :: r.callers, r.steps + 1, m.memory⟩))
    (hraise : ∀ ins e entries again m, r.Does ins (.error (.raise e entries again) m) →
      motive (unwind e (r.steps + 1) m.memory m.frame r.callers r.frame.ip entries again))
    (hfatal : ∀ ins cause m, r.Does ins (.error (.fatal cause) m) →
      motive (.ended (.fatal cause r.active) m.memory))
    (hcrash : ∀ ins m, r.Does ins (.error .crash m) →
      motive (.ended .crashed m.memory)) : motive r.proceed := by
  unfold proceed
  cases hi : r.frame.code.code[r.frame.ip]? with
  | none => exact hoff hi
  | some ins =>
    dsimp only
    cases hm : execute ins r.frame.ip ⟨r.frame.ahead, r.memory⟩ with
    | ok signal m =>
      cases signal with
      | next => exact hnext ins m ⟨hi, hm⟩
      | ret v => exact hret ins v m ⟨hi, hm⟩
      | call callee => exact hcall ins callee m ⟨hi, hm⟩
    | error stop m =>
      cases stop with
      | raise e entries again => exact hraise ins e entries again m ⟨hi, hm⟩
      | fatal cause => exact hfatal ins cause m ⟨hi, hm⟩
      | crash => exact hcrash ins m ⟨hi, hm⟩

def entering (limits : Limits) (depth : Nat) : Progress → Progress
  | .running r =>
    if depth < r.callers.length ∧ limits.callDepth ≤ depth + 1 then
      .ended (.fatal (.callLimit limits.callDepth r.frame.code.name) (r.callers.map (·.code.name)))
        r.memory
    else .running r
  | p => p

def escape (e : Exception) (steps : Nat) (m : Memory) (traced : List TraceEntry) :
    List Frame → Progress
  | [] => .ended (.raised e traced) m
  | c :: callers => unwind e steps m c callers (c.ip - 1) traced false

theorem unwind_eq (e : Exception) (steps : Nat) (m : Memory) (f : Frame) (callers : List Frame)
    (index : Nat) (entries : List TraceEntry) (again : Bool) :
    unwind e steps m f callers index entries again =
      let traced := if again then entries else f.entry index :: entries
      match f.enterHandler? e traced (m.store.newTraceback traced).1 with
      | some f => .running ⟨f, callers, steps, { m with store := (m.store.newTraceback traced).2 }⟩
      | none => escape e steps m traced callers := by
  cases callers <;> rw [unwind.eq_def] <;> rfl

section

variable {e : Exception} {steps : Nat} {f : Frame} {callers : List Frame} {index : Nat}
  {entries : List TraceEntry} {again : Bool}
  (h : unwind e steps m f callers index entries again = .running r)
include h

theorem exists_handler_of_unwind :
    r.steps = steps ∧ ∃ passed g traced, f :: callers = passed ++ g :: r.callers ∧
      g.enterHandler? e traced (m.store.newTraceback traced).1 = some r.frame := by
  induction callers generalizing f index entries again with
  | nil =>
    rw [unwind_eq] at h
    dsimp only at h
    split at h
    · next hhandler =>
      cases h
      exact ⟨rfl, [], f, _, rfl, hhandler⟩
    · cases h
  | cons c callers ih =>
    rw [unwind_eq] at h
    dsimp only at h
    split at h
    · next hhandler =>
      cases h
      exact ⟨rfl, [], f, _, rfl, hhandler⟩
    · obtain ⟨hsteps, passed, g, traced, hcallers, hhandler⟩ := ih h
      exact ⟨hsteps, f :: passed, g, traced, congrArg (f :: ·) hcallers, hhandler⟩

theorem length_callers_of_unwind : r.callers.length ≤ callers.length := by
  obtain ⟨-, passed, g, -, hcallers, -⟩ := exists_handler_of_unwind h
  have hlength := congrArg List.length hcallers
  simp only [List.length_cons, List.length_append] at hlength
  omega

end

/-- What an instruction makes of a run that goes on. -/
inductive Continues (r : Run) (ins : Instruction) : Run → Prop
  | next {m : Moment} (hm : execute ins r.frame.ip ⟨r.frame.ahead, r.memory⟩ = .ok .next m) :
      Continues r ins ⟨m.frame, r.callers, r.steps + 1, m.memory⟩
  | ret {v : Value} {m : Moment} {c : Frame} {callers : List Frame}
      (hm : execute ins r.frame.ip ⟨r.frame.ahead, r.memory⟩ = .ok (.ret v) m)
      (hcallers : r.callers = c :: callers) :
      Continues r ins ⟨c.push v, callers, r.steps + 1, m.memory⟩
  | call {callee : Frame} {m : Moment}
      (hm : execute ins r.frame.ip ⟨r.frame.ahead, r.memory⟩ = .ok (.call callee) m) :
      Continues r ins ⟨callee, m.frame :: r.callers, r.steps + 1, m.memory⟩
  | raise {e : Exception} {entries : List TraceEntry} {again : Bool} {m : Moment} {r' : Run}
      (hm : execute ins r.frame.ip ⟨r.frame.ahead, r.memory⟩ = .error (.raise e entries again) m)
      (hr : unwind e (r.steps + 1) m.memory m.frame r.callers r.frame.ip entries again =
        .running r') : Continues r ins r'

theorem exists_continues (h : r.proceed = .running r') :
    ∃ ins, r.frame.code.code[r.frame.ip]? = some ins ∧ r.Continues ins r' := by
  revert h
  refine proceed_cases (motive := fun p => p = .running r' → _) r (fun _ h => nomatch h)
    (fun ins m hdoes h => ⟨ins, hdoes.1, ?_⟩) (fun ins v m hdoes h => ⟨ins, hdoes.1, ?_⟩)
    (fun ins callee m hdoes h => ⟨ins, hdoes.1, ?_⟩)
    (fun ins e entries again m hdoes h => ⟨ins, hdoes.1, .raise hdoes.2 h⟩)
    (fun _ _ _ _ h => nomatch h) fun _ _ _ h => nomatch h
  · cases h
    exact .next hdoes.2
  · dsimp only [leave] at h
    split at h
    · cases h
    · next hcallers =>
      cases h
      exact .ret hdoes.2 hcallers
  · cases h
    exact .call hdoes.2

theorem advance_eq (limits : Limits) (r : Run) :
    r.advance limits =
      if r.frame.code.code[r.frame.ip]? = none then r.proceed
      else match passedLimit? limits { r with steps := r.steps + 1 } with
        | some cause => r.cutOff cause
        | none => entering limits r.callers.length r.proceed := by
  have hentering {p : Progress}
      (hp : ∀ r', p = .running r' → r'.callers.length ≤ r.callers.length) :
      entering limits r.callers.length p = p := by
    cases p with
    | ended => rfl
    | running r' => exact if_neg fun h => Nat.not_lt.2 (hp r' rfl) h.1
  unfold advance proceed
  dsimp only
  cases hi : r.frame.code.code[r.frame.ip]? with
  | none => rfl
  | some ins =>
    rw [if_neg (by simp)]
    dsimp only
    cases passedLimit? limits { r with steps := r.steps + 1 } with
    | some cause => rfl
    | none =>
      dsimp only
      cases execute ins r.frame.ip ⟨r.frame.ahead, r.memory⟩ with
      | ok signal m =>
        cases signal with
        | next => exact (hentering fun r' hr' => by cases hr'; exact le_rfl).symm
        | ret v =>
          refine (hentering fun r' hr' => ?_).symm
          dsimp only [leave] at hr'
          cases hc : r.callers with
          | nil =>
            rw [hc] at hr'
            cases hr'
          | cons c callers =>
            rw [hc] at hr'
            cases hr'
            exact Nat.le_succ _
        | call callee =>
          simp only [enter, entering, List.length_cons, Nat.lt_succ_self, true_and]
          rfl
      | error stop m =>
        cases stop with
        | raise e entries again =>
          exact (hentering fun r' hr' => length_callers_of_unwind hr').symm
        | fatal cause => rfl
        | crash => rfl

theorem advance_eq_proceed (limits : Limits) (r : Run) :
    r.advance limits = r.proceed ∨
      ∃ cause active m, cause.ofLimit = true ∧
        r.advance limits = .ended (.fatal cause active) m := by
  rw [advance_eq]
  split_ifs
  · exact .inl rfl
  · split
    · next cause hcause =>
      exact .inr ⟨cause, _, _, ofLimit_of_passedLimit? hcause, rfl⟩
    · cases r.proceed with
      | ended => exact .inl rfl
      | running r' =>
        rw [entering]
        split_ifs
        · exact .inr ⟨_, _, _, rfl, rfl⟩
        · exact .inl rfl

theorem proceed_of_advance (h : r.advance limits = .running r') : r.proceed = .running r' := by
  rcases advance_eq_proceed limits r with hproceed | ⟨cause, active, m, -, hended⟩
  · rw [← hproceed, h]
  · rw [h] at hended
    cases hended

/-! ### Many instructions -/

/-- Without limits, the run comes to the second one. -/
def Proceeds : Run → Run → Prop := Relation.ReflTransGen fun r r' => r.proceed = .running r'

/-- Without limits, the run ends this way. -/
def Finishes (r : Run) (o : Outcome) (m : Memory) : Prop :=
  ∃ r', r.Proceeds r' ∧ r'.proceed = .ended o m

theorem Finishes.of_proceed (h : r.proceed = .running r') : r.Finishes o m ↔ r'.Finishes o m := by
  constructor
  · rintro ⟨last, hlast, hended⟩
    rcases Relation.ReflTransGen.cases_head hlast with rfl | ⟨next, hnext, hlast⟩
    · rw [h] at hended
      cases hended
    · rw [h] at hnext
      cases hnext
      exact ⟨last, hlast, hended⟩
  · rintro ⟨last, hlast, hended⟩
    exact ⟨last, .head h hlast, hended⟩

theorem Finishes.of_proceeds (h : r.Proceeds r') : r.Finishes o m ↔ r'.Finishes o m := by
  induction h with
  | refl => rfl
  | tail _ hnext ih => exact ih.trans (of_proceed hnext)

theorem Finishes.unique (h : r.Finishes o m) (h' : r.Finishes o' m') : o = o' ∧ m = m' := by
  obtain ⟨last, hlast, hended⟩ := h
  rw [of_proceeds hlast] at h'
  obtain ⟨last', hlast', hended'⟩ := h'
  rcases Relation.ReflTransGen.cases_head hlast' with rfl | ⟨next, hnext, -⟩
  · rw [hended] at hended'
    cases hended'
    exact ⟨rfl, rfl⟩
  · rw [hended] at hnext
    cases hnext

/-- With limits, the run comes to the second one or is cut off by a limit. -/
def Arrives (limits : Limits) (r r' : Run) : Prop :=
  ∃ last, Relation.ReflTransGen (fun r r' => r.advance limits = .running r') r last ∧
    (last = r' ∨ ∃ cause active m, cause.ofLimit = true ∧
      last.advance limits = .ended (.fatal cause active) m)

theorem Proceeds.arrives (h : r.Proceeds r') (limits : Limits) : r.Arrives limits r' := by
  induction h using Relation.ReflTransGen.head_induction_on with
  | refl => exact ⟨r', .refl, .inl rfl⟩
  | @head r next hnext _ ih =>
    rcases advance_eq_proceed limits r with hproceed | hlimit
    · obtain ⟨last, hlast, hor⟩ := ih
      exact ⟨last, .head (hproceed.trans hnext) hlast, hor⟩
    · exact ⟨r, .refl, .inr hlimit⟩

theorem finishes_of_go {fuel : Nat} (h : go limits fuel r = some (o, m)) :
    o.AtLimit ∨ r.Finishes o m := by
  induction fuel generalizing r with
  | zero => cases h
  | succ fuel ih =>
    rw [go] at h
    rcases advance_eq_proceed limits r with hproceed | ⟨cause, active, m', hlimit, hended⟩
    · rw [hproceed] at h
      cases hr : r.proceed with
      | running r' =>
        rw [hr] at h
        exact (ih h).imp_right (Finishes.of_proceed hr).2
      | ended o' m' =>
        rw [hr] at h
        cases h
        exact .inr ⟨r, .refl, hr⟩
    · rw [hended] at h
      cases h
      exact .inl hlimit

theorem Finishes.exists_go (h : r.Finishes o m) (limits : Limits) :
    ∃ fuel o' m', go limits fuel r = some (o', m') ∧ (o'.AtLimit ∨ o' = o ∧ m' = m) := by
  obtain ⟨last, hlast, hended⟩ := h
  induction hlast using Relation.ReflTransGen.head_induction_on with
  | refl =>
    rcases advance_eq_proceed limits last with hproceed | ⟨cause, active, m', hlimit, hcut⟩
    · exact ⟨1, o, m, by rw [go, hproceed, hended], .inr ⟨rfl, rfl⟩⟩
    · exact ⟨1, .fatal cause active, m', by rw [go, hcut], .inl hlimit⟩
  | @head r r' hnext _ ih =>
    rcases advance_eq_proceed limits r with hproceed | ⟨cause, active, m', hlimit, hcut⟩
    · obtain ⟨fuel, o', m', hgo, hor⟩ := ih
      exact ⟨fuel + 1, o', m', by rw [go, hproceed, hnext]; exact hgo, hor⟩
    · exact ⟨1, .fatal cause active, m', by rw [go, hcut], .inl hlimit⟩

end Run

end Bytewright
