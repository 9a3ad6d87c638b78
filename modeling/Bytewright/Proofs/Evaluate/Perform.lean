import Bytewright.Proofs.Evaluate.Basic

/-!
# Code that does what an evaluation does

Stretches of code that do what evaluations do are composed as the evaluations are.
-/

namespace Bytewright

open Exec List

variable {α β : Type} {v : Value} {n : Nat} {a k : UInt8} {args : List Value}
  {kwargs : Keywords}

/-- With enough fuel this is the answer. -/
def Eval.Settles (X : Nat → Eval α) (m : Memory) (answer : EStateM.Result Halt Memory α) : Prop :=
  ∃ k, ∀ fuel ≥ k, X fuel m = answer

/-- The evaluation may have this value. -/
def Eval.Returns (X : Env → Nat → Eval α) (a : α) : Prop :=
  ∃ env fuel m m', X env fuel m = .ok a m'

/-- The run arrives at `q` with the answer on the stack, or does what the evaluation does instead.
-/
def Run.Comes (f : Frame) (callers : List Frame) (rest : List Value) (p q : Nat)
    (out : α → List Value) (r : Run) : EStateM.Result Halt Memory α → Prop
  | .ok a m => ∃ n, r.Proceeds ⟨{ f with stack := out a ++ rest, ip := q }, callers, n, m⟩
  | .error (.raise e entries) m => ∃ last n index above, r.Proceeds last ∧ p ≤ index ∧ index < q ∧
      last.proceed = Run.unwind e n m { f with stack := above ++ rest, ip := index + 1 } callers
        index entries false
  | .error (.fatal cause active) m =>
    r.Finishes (.fatal cause (active ++ (f :: callers).map (·.code.name))) m
  | .error .crash m => r.Finishes .crashed m
  | .error .unfinished _ => r.Endless

/-- From `p`, in every frame and on top of every stack, runs of the unit come to `q` as the
evaluation does. -/
def Performs (c : Code) (p q : Nat) (ins : List Value) (X : Env → Nat → Eval α)
    (out : α → List Value) : Prop :=
  ∀ (f : Frame) (callers : List Frame) (n : Nat) (m : Memory) (rest : List Value), f.code = c →
    ∃ answer, Eval.Settles (X f.env) m answer ∧
      Run.Comes f callers rest p q out ⟨{ f with stack := ins ++ rest, ip := p }, callers, n, m⟩
        answer

/-! ### Composition -/

section Compose

variable {f : Frame} {callers : List Frame} {rest : List Value} {p q p' q' : Nat}
  {out : α → List Value} {r r' : Run} {answer : EStateM.Result Halt Memory α}

theorem Run.Comes.head (h : r.Proceeds r') (h' : Run.Comes f callers rest p q out r' answer) :
    Run.Comes f callers rest p q out r answer := by
  cases answer with
  | ok a m =>
    obtain ⟨n, hn⟩ := h'
    exact ⟨n, Relation.ReflTransGen.trans h hn⟩
  | error halt m =>
    cases halt with
    | raise e entries =>
      obtain ⟨last, n, index, above, hlast, hindex⟩ := h'
      exact ⟨last, n, index, above, Relation.ReflTransGen.trans h hlast, hindex⟩
    | fatal cause active | crash => exact (Run.Finishes.of_proceeds h).2 h'
    | unfinished => exact .of_proceeds h h'

theorem Run.Comes.of_error (more : List Value) {halt : Halt} {m : Memory}
    (h : Run.Comes f callers (more ++ rest) p q out r (.error halt m)) (hp : p' ≤ p) (hq : q ≤ q')
    (out' : β → List Value) : Run.Comes f callers rest p' q' out' r (.error halt m) := by
  cases halt with
  | raise e entries =>
    obtain ⟨last, n, index, above, hlast, hle, hlt, hproceed⟩ := h
    refine ⟨last, n, index, above ++ more, hlast, hp.trans hle, hlt.trans_le hq, ?_⟩
    rw [hproceed, append_assoc]
  | fatal cause active => exact h
  | crash => exact h
  | unfinished => exact h

theorem Run.Comes.widen (h : Run.Comes f callers rest p q out r answer) (hp : p' ≤ p) :
    Run.Comes f callers rest p' q out r answer := by
  cases answer with
  | ok a m => exact h
  | error halt m => exact of_error [] h hp le_rfl out

end Compose

namespace Performs

variable {c : Code} {p q t : Nat} {ins : List Value} {X : Env → Nat → Eval α}
  {mid : α → List Value} {out : β → List Value}

theorem bind {Y : α → Env → Nat → Eval β} (hX : Performs c p q ins X mid)
    (hY : ∀ a, Eval.Returns X a → Performs c q t (mid a) (Y a) out) (hpq : p ≤ q) (hqt : q ≤ t) :
    Performs c p t ins (fun env fuel => X env fuel >>= fun a => Y a env fuel) out := by
  intro f callers n m rest hf
  obtain ⟨answer, ⟨k, hk⟩, hcomes⟩ := hX f callers n m rest hf
  cases answer with
  | ok a m' =>
    obtain ⟨n', hn'⟩ := hcomes
    have hreturns : Eval.Returns X a := ⟨f.env, k, m, m', hk k le_rfl⟩
    obtain ⟨answer, ⟨k', hk'⟩, hcomes⟩ := hY a hreturns f callers n' m' rest hf
    refine ⟨answer, ⟨max k k', fun fuel hfuel => ?_⟩, (hcomes.widen hpq).head hn'⟩
    show EStateM.bind (X f.env fuel) (fun a => Y a f.env fuel) m = answer
    rw [EStateM.bind, hk fuel (le_of_max_le_left hfuel)]
    exact hk' fuel (le_of_max_le_right hfuel)
  | error halt m' =>
    refine ⟨.error halt m', ⟨k, fun fuel hfuel => ?_⟩,
      Run.Comes.of_error [] hcomes le_rfl hqt out⟩
    show EStateM.bind (X f.env fuel) (fun a => Y a f.env fuel) m = _
    rw [EStateM.bind, hk fuel hfuel]

theorem frame (h : Performs c p q ins X mid) (more : List Value) :
    Performs c p q (ins ++ more) X fun a => mid a ++ more := by
  intro f callers n m rest hf
  obtain ⟨answer, hsettles, hcomes⟩ := h f callers n m (more ++ rest) hf
  refine ⟨answer, hsettles, ?_⟩
  rw [append_assoc]
  cases answer with
  | ok a m' =>
    obtain ⟨n', hn'⟩ := hcomes
    exact ⟨n', by rw [append_assoc]; exact hn'⟩
  | error halt m' => exact hcomes.of_error more le_rfl le_rfl _

theorem pure (c : Code) (p : Nat) (a : α) (out : α → List Value) :
    Performs c p p (out a) (fun _ _ => Pure.pure a) out :=
  fun _ _ n m _ _ => ⟨.ok a m, ⟨0, fun _ _ => rfl⟩, n, .refl⟩

theorem congr {X' : Env → Nat → Eval α} (h : Performs c p q ins X mid)
    (hX : ∀ env fuel m, X env fuel m = X' env fuel m) : Performs c p q ins X' mid := by
  obtain rfl : X = X' := by
    funext env fuel m
    exact hX env fuel m
  exact h

end Performs

/-! ### Instructions -/

/-- An instruction ends as the evaluation ends. -/
inductive Gives (f : Frame) (rest : List Value) (out : α → List Value) :
    EStateM.Result Halt Memory α → EStateM.Result Stop Moment Signal → Prop
  | ok (a : α) (m : Memory) :
      Gives f rest out (.ok a m) (.ok .next ⟨{ f with stack := out a ++ rest }, m⟩)
  | raise (e : Exception) (m : Memory) :
      Gives f rest out (.error (.raise e []) m)
        (.error (.raise e [] false) ⟨{ f with stack := rest }, m⟩)
  | crash (m : Memory) (left : List Value) :
      Gives f rest out (.error .crash m) (.error .crash ⟨{ f with stack := left ++ rest }, m⟩)

theorem Gives.of_attempt {f : Frame} {m : Memory} {rest : List Value} {out : α → List Value}
    {x : EStateM Failure Memory α} {result : EStateM.Result Stop Moment Signal}
    (hok : ∀ a m', x m = .ok a m' → result = .ok .next ⟨{ f with stack := out a ++ rest }, m'⟩)
    (herror : ∀ failure m', x m = .error failure m' →
      result = fail failure ⟨{ f with stack := rest }, m'⟩) :
    Gives f rest out (Eval.attempt x m) result := by
  rw [Eval.attempt]
  cases hx : x m with
  | ok a m' =>
    rw [hok a m' hx]
    exact .ok a m'
  | error failure m' =>
    rw [herror failure m' hx]
    exact .raise _ _

theorem Run.proceed_of_next {f : Frame} {callers : List Frame} {m : Memory} {i : Instruction}
    {m' : Moment} (hi : f.code.code[f.ip]? = some i)
    (h : execute i f.ip ⟨f.ahead, m⟩ = .ok .next m') :
    Run.proceed ⟨f, callers, n, m⟩ = .running ⟨m'.frame, callers, n + 1, m'.memory⟩ := by
  simp only [Run.proceed, hi, h]

namespace Performs

variable {c : Code} {p q t : Nat} {ins : List Value} {out : α → List Value} {i : Instruction}

theorem of_execute {X : Env → Eval α} (hi : c.code[p]? = some i)
    (h : ∀ (f : Frame) (m : Memory) (rest : List Value), f.code = c →
      Gives { f with ip := p + 1 } rest out (X f.env m)
        (execute i p ⟨{ f with stack := ins ++ rest, ip := p + 1 }, m⟩)) :
    Performs c p (p + 1) ins (fun env _ => X env) out := by
  intro f callers n m rest hf
  refine ⟨X f.env m, ⟨0, fun _ _ => rfl⟩, ?_⟩
  have hgives := h f m rest hf
  generalize hx : X f.env m = answer at hgives
  generalize hexecute : execute i p _ = result at hgives
  cases hgives with
  | ok a m' =>
    refine ⟨n + 1, .single ?_⟩
    exact Run.proceed_of_next (f := { f with stack := ins ++ rest, ip := p }) (hf ▸ hi) hexecute
  | raise e m' =>
    refine ⟨_, n + 1, p, [], .refl, le_rfl, Nat.lt_succ_self p, ?_⟩
    have hi' : f.code.code[p]? = some i := hf ▸ hi
    simp only [Run.proceed, Frame.ahead, hi', hexecute]
    rfl
  | crash m' left =>
    refine ⟨_, .refl, ?_⟩
    have hi' : f.code.code[p]? = some i := hf ▸ hi
    simp only [Run.proceed, Frame.ahead, hi', hexecute]

theorem jump (hi : c.code[p]? = some i) (hop : i.opcode = .jump .jumpForward)
    (ht : i.target p = some q) (hle : q ≤ c.code.length) (a : α) (out : α → List Value) :
    Performs c p q (out a) (fun _ _ => Pure.pure a) out := by
  intro f callers n m rest hf
  refine ⟨.ok a m, ⟨0, fun _ _ => rfl⟩, n + 1, .single ?_⟩
  have hexecute : execute i p ⟨{ f with stack := out a ++ rest, ip := p + 1 }, m⟩ =
      .ok .next ⟨{ f with stack := out a ++ rest, ip := q }, m⟩ := by
    simp only [execute, hop, ht, onJump, jumpTo, Bind.bind, EStateM.bind, Exec.frame, hf,
      if_pos hle]
    rfl
  exact Run.proceed_of_next (f := { f with stack := out a ++ rest, ip := p }) (hf ▸ hi) hexecute

theorem branch {Y N : Env → Nat → Eval α} (hi : c.code[p]? = some i)
    (hop : i.opcode = .jump .popJumpIfFalse) (ht : i.target p = some t) (hlt : p < t)
    (hle : t ≤ c.code.length) (hY : Performs c (p + 1) q ins Y out)
    (hN : Performs c t q ins N out) :
    Performs c p q (v :: ins) (fun env fuel => do
      if ← Eval.view fun s => .ok (s.truthy v) then Y env fuel else N env fuel) out := by
  intro f callers n m rest hf
  have hview (env : Env) (fuel : Nat) :
      (do if ← Eval.view fun s => .ok (s.truthy v) then Y env fuel else N env fuel : Eval α) m =
        if m.store.truthy v then Y env fuel m else N env fuel m := by
    show (if m.store.truthy v then Y env fuel else N env fuel) m = _
    split_ifs <;> rfl
  have hexecute : execute i p ⟨{ f with stack := v :: ins ++ rest, ip := p + 1 }, m⟩ =
      .ok .next ⟨{ f with
        stack := ins ++ rest
        ip := if m.store.truthy v then p + 1 else t }, m⟩ := by
    simp only [execute, hop, ht, onJump, popCondition, pop, store, Bind.bind,
      EStateM.bind, cons_append, Pure.pure, EStateM.pure]
    split_ifs
    · rfl
    · simp only [jumpTo, Bind.bind, EStateM.bind, Exec.frame, hf, if_pos hle]
      rfl
  have hproceed : Run.Proceeds ⟨{ f with stack := v :: ins ++ rest, ip := p }, callers, n, m⟩ _ :=
    .single (Run.proceed_of_next (f := { f with stack := v :: ins ++ rest, ip := p }) (hf ▸ hi)
      hexecute)
  by_cases htrue : m.store.truthy v = true
  · obtain ⟨answer, ⟨k, hk⟩, hcomes⟩ := hY f callers (n + 1) m rest hf
    refine ⟨answer, ⟨k, fun fuel hfuel => ?_⟩, (hcomes.widen (Nat.le_succ p)).head ?_⟩
    · exact (hview f.env fuel).trans ((if_pos htrue).trans (hk fuel hfuel))
    · rwa [if_pos htrue] at hproceed
  · obtain ⟨answer, ⟨k, hk⟩, hcomes⟩ := hN f callers (n + 1) m rest hf
    refine ⟨answer, ⟨k, fun fuel hfuel => ?_⟩, (hcomes.widen hlt.le).head ?_⟩
    · exact (hview f.env fuel).trans ((if_neg htrue).trans (hk fuel hfuel))
    · rwa [if_neg htrue] at hproceed

end Performs

/-! ### Operands -/

section Operands

variable {f : Frame} {m : Memory}

theorem popMany_reverse (vs rest : List Value) (hn : n = vs.length) :
    popMany n ⟨{ f with stack := vs.reverse ++ rest }, m⟩ =
      .ok vs ⟨{ f with stack := rest }, m⟩ := by
  subst hn
  have hlength : vs.length = vs.reverse.length := length_reverse.symm
  have hle : ¬(vs.reverse ++ rest).length < vs.length := by
    rw [length_append, length_reverse]
    omega
  simp only [popMany, if_neg hle]
  rw [hlength, take_left, drop_left, reverse_reverse]

def keywordValues (kwargs : Keywords) : List Value :=
  kwargs.flatMap fun p => [.str p.1, p.2]

theorem length_keywordValues (kwargs : Keywords) :
    (keywordValues kwargs).length = 2 * kwargs.length := by
  simp [keywordValues, Nat.mul_comm]

theorem keywords_keywordValues (kwargs : Keywords) :
    keywords (keywordValues kwargs) = .ok kwargs := by
  induction kwargs with
  | nil => rfl
  | cons p kwargs ih =>
    show (keywords (keywordValues kwargs) >>= fun more => _) = _
    rw [ih]
    rfl

theorem execute_callFunction {i : Instruction} {index : Nat} (hop : i.opcode = .call .callFunction)
    (hspec : splitArgSpec i.arg = (a, k)) (ha : a.toNat = args.length)
    (hk : k.toNat = kwargs.length) (rest : List Value) :
    execute i index ⟨{ f with
        stack := (keywordValues kwargs).reverse ++ (args.reverse ++ (v :: rest)) }, m⟩ =
      callWith v args kwargs ⟨{ f with stack := rest }, m⟩ := by
  have hkwargs : 2 * k.toNat = (keywordValues kwargs).length := by rw [hk, length_keywordValues]
  simp only [execute, hop, onCall, popSpread, Bind.bind, EStateM.bind, Pure.pure,
    EStateM.pure, hspec, popMany_reverse (keywordValues kwargs) _ hkwargs,
    keywords_keywordValues, orFail, popMany_reverse args _ ha, pop,
    append_nil]

end Operands

/-! ### Calls -/

theorem Run.comes_of_callee (f callee : Frame) (callers : List Frame) (n p : Nat) (m : Memory)
    (rest : List Value) :
    ∃ answer, Eval.Settles (fun fuel => Eval.ofOutcome
        (Run.outcome? fuel { frame := callee, memory := m })) m answer ∧
      Run.Comes f callers rest p (p + 1) (fun v => [v])
        ⟨callee, { f with stack := rest, ip := p + 1 } :: callers, n, m⟩ answer := by
  let r : Run := { frame := callee, memory := m }
  let base := { f with stack := rest, ip := p + 1 } :: callers
  have habove : (⟨callee, base, n, m⟩ : Run) = r.above base n := rfl
  show ∃ answer, Eval.Settles (fun fuel => Eval.ofOutcome (Run.outcome? fuel r)) m answer ∧
    Run.Comes f callers rest p (p + 1) (fun v => [v]) ⟨callee, base, n, m⟩ answer
  rw [habove]
  rcases r.finishes_or_endless with ⟨o, m', hfinishes⟩ | hendless
  · obtain ⟨k, hk⟩ := hfinishes.exists_outcome?
    obtain ⟨last, hlast, hended⟩ := hfinishes
    have hlast' := hlast.above base n
    have hended' := last.proceed_above base n
    rw [hended] at hended'
    have hsettles : Eval.Settles (fun fuel => Eval.ofOutcome (Run.outcome? fuel r)) m
        (Eval.ofOutcome (some (o, m')) m) := ⟨k, fun fuel hfuel =>
          congrArg (fun o => Eval.ofOutcome o m) (hk fuel hfuel)⟩
    refine ⟨_, hsettles, ?_⟩
    cases o with
    | value v => exact ⟨_, hlast'.tail hended'⟩
    | raised e entries =>
      exact ⟨_, _, p, [], hlast', le_rfl, Nat.lt_succ_self p, hended'⟩
    | fatal cause active | crashed => exact ⟨_, hlast', hended'⟩
  · exact ⟨.error .unfinished m, ⟨0, fun fuel _ =>
      congrArg (fun o => Eval.ofOutcome o m) (hendless.outcome?_eq_none fuel)⟩,
      hendless.above base n⟩

theorem Eval.call_function (env : Env) (fuel : Nat) (g : Function) (args : List Value)
    (kwargs : Keywords) (m : Memory) :
    Eval.call env fuel (.function g) args kwargs m =
      match g.bind args kwargs m.store with
      | .ok (frame, store) =>
        ofOutcome (Run.outcome? fuel { frame, memory := { m with store } }) { m with store }
      | .error (.inl failure) => attempt (fun m => .error failure m) m
      | .error (.inr cause) => .error (.fatal cause []) m := rfl

theorem Eval.call_of_ne_function (hv : ∀ k, v ≠ .function k) (env : Env) (fuel : Nat)
    (args : List Value) (kwargs : Keywords) :
    Eval.call env fuel v args kwargs = attempt (Memory.callValue env.globals v args kwargs) := by
  cases v with
  | function k => exact (hv k rfl).elim
  | _ => rfl

namespace Performs

variable {c : Code} {p : Nat} {i : Instruction}

theorem call (hi : c.code[p]? = some i) (hop : i.opcode = .call .callFunction)
    (hspec : splitArgSpec i.arg = (a, k)) (ha : a.toNat = args.length)
    (hk : k.toNat = kwargs.length) :
    Performs c p (p + 1) ((keywordValues kwargs).reverse ++ (args.reverse ++ [v]))
      (fun env fuel => Eval.call env fuel v args kwargs) fun v => [v] := by
  have hexecute (f : Frame) (m : Memory) (rest : List Value) : execute i p ⟨{ f with
        stack := (keywordValues kwargs).reverse ++ (args.reverse ++ [v]) ++ rest
        ip := p + 1 }, m⟩ =
      callWith v args kwargs ⟨{ f with stack := rest, ip := p + 1 }, m⟩ := by
    rw [append_assoc, append_assoc]
    exact execute_callFunction (f := { f with ip := p + 1 }) (m := m) (v := v) hop hspec ha hk rest
  by_cases hv : ∃ g, v = .function g
  · obtain ⟨g, rfl⟩ := hv
    intro f callers n m rest hf
    have hi' : f.code.code[p]? = some i := hf ▸ hi
    have hexecute := hexecute f m rest
    rw [callWith_function] at hexecute
    simp only [store, Bind.bind, EStateM.bind] at hexecute
    have hcall (fuel : Nat) := Eval.call_function f.env fuel g args kwargs m
    cases hbind : g.bind args kwargs m.store with
    | ok bound =>
      obtain ⟨callee, s⟩ := bound
      simp only [hbind] at hcall hexecute
      obtain ⟨answer, ⟨k, hk⟩, hcomes⟩ := Run.comes_of_callee f callee callers (n + 1) p
        { m with store := s } rest
      refine ⟨answer, ⟨k, fun fuel hfuel => ?_⟩, hcomes.head (.single ?_)⟩
      · exact (hcall fuel).trans (hk fuel hfuel)
      · simp only [Run.proceed, Frame.ahead, hi', hexecute]
        rfl
    | error stop =>
      simp only [hbind] at hcall hexecute
      cases stop with
      | inl failure =>
        refine ⟨.error (.raise (m.store.failed failure).1 [])
          { m with store := (m.store.failed failure).2 }, ⟨0, fun fuel _ => ?_⟩,
          ⟨_, n + 1, p, [], .refl, le_rfl, Nat.lt_succ_self p, ?_⟩⟩
        · exact hcall fuel
        · simp only [Run.proceed, Frame.ahead, hi', hexecute]
          rfl
      | inr cause =>
        refine ⟨.error (.fatal cause []) m, ⟨0, fun fuel _ => ?_⟩, ⟨_, .refl, ?_⟩⟩
        · exact hcall fuel
        · simp only [Run.proceed, Frame.ahead, hi', hexecute]
          rfl
  · have hne (g : Function) : v ≠ .function g := fun h => hv ⟨g, h⟩
    have hattempt : Performs c p (p + 1) ((keywordValues kwargs).reverse ++ (args.reverse ++ [v]))
        (fun env _ => Eval.attempt (Memory.callValue env.globals v args kwargs)) fun v => [v] :=
      of_execute hi fun f m rest _ => .of_attempt
        (fun w m' (h : Memory.callValue f.globals v args kwargs m = _) => by
          rw [hexecute, callWith_of_ne_function hne]
          simp only [h]
          rfl)
        (fun failure m' (h : Memory.callValue f.globals v args kwargs m = _) => by
          rw [hexecute, callWith_of_ne_function hne]
          simp only [h])
    exact hattempt.congr fun env fuel m => by rw [Eval.call_of_ne_function hne]

end Performs

end Bytewright
