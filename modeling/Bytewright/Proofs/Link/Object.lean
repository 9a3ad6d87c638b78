import Bytewright.Machine.Call
import Bytewright.Proofs.Link.Store

/-!
# Operations on linked values

On stores that are linked, the operations of the machine come from values that correspond to values
that correspond, or fail on both sides for the same reason.
-/

namespace Bytewright

open List

variable {K : Sharing} {hidden : ScopeRef → Bindings} {ids ids' : Pairing} {s t : Store}
  {v w v' w' u u' : Value} {vs ws : List Value} {α β : Type} {R : α → β → Prop}
  {x : Except Failure α} {α' β' : Type} {globals : ScopeRef}

theorem ExceptLinked.fail {f : Failure} (h : f.args = [.str f.message]) :
    ExceptLinked K ids R (.error f) (.error f) :=
  .error (.of_args h)

theorem ExceptLinked.cases {y : Except Failure β} (h : ExceptLinked K ids R x y) :
    (∃ a b, x = .ok a ∧ y = .ok b ∧ R a b) ∨
      ∃ f g, x = .error f ∧ y = .error g ∧ f.Linked K ids g := by
  cases h with
  | ok h => exact .inl ⟨_, _, rfl, rfl, h⟩
  | error h => exact .inr ⟨_, _, rfl, rfl, h⟩

theorem ExceptLinked.bind {R : α → α' → Prop} {R' : β → β' → Prop} {x' : Except Failure α'}
    {g : α → Except Failure β} {g' : α' → Except Failure β'} (hx : ExceptLinked K ids R x x')
    (hg : ∀ a a', R a a' → ExceptLinked K ids R' (g a) (g' a')) :
    ExceptLinked K ids R' (x >>= g) (x' >>= g') := by
  cases hx with
  | ok h => exact hg _ _ h
  | error h => exact .error h

theorem ExceptLinked.of_eq
    (h : ∀ f, x = .error f → f.args = [.str f.message]) : ExceptLinked K ids Eq x x := by
  cases x with
  | ok a => exact .ok rfl
  | error f => exact .fail (h f rfl)

theorem Failure.Linked.missingKey (h : v.Linked K ids w) :
    (Failure.missingKey v).Linked K ids (.missingKey w) := ⟨rfl, .cons h .nil⟩

theorem optionRel_refl : ∀ a : Option α, Option.Rel Eq a a
  | none => .none
  | some _ => .some rfl

theorem optionRel_cases {a : Option α} {b : Option β} (h : Option.Rel R a b) :
    a = none ∧ b = none ∨ ∃ x y, a = some x ∧ b = some y ∧ R x y := by
  cases h with
  | none => exact .inl ⟨rfl, rfl⟩
  | some h => exact .inr ⟨_, _, rfl, rfl, h⟩

theorem getElem?_rel {xs : List α} {ys : List β} (h : Forall₂ R xs ys) (i : Nat) :
    Option.Rel R xs[i]? ys[i]? := by
  induction h generalizing i with
  | nil => exact .none
  | cons hxy _ ih =>
    cases i with
    | zero => exact .some hxy
    | succ i => exact ih i

theorem set_rel {xs : List α} {ys : List β} {x : α} {y : β} (h : Forall₂ R xs ys) (i : Nat)
    (hxy : R x y) : Forall₂ R (xs.set i x) (ys.set i y) := by
  induction h generalizing i with
  | nil => exact .nil
  | cons hab hrest ih =>
    cases i with
    | zero => exact .cons hxy hrest
    | succ i => exact .cons hab (ih i)

namespace Store.Linked

/-! ### Attributes -/

theorem attr (h : Store.Linked K hidden ids s t) (hv : v.Linked K ids w) (name : String) :
    ExceptLinked K ids (LinkedWith K hidden ids (Value.Linked K)) (s.attr v name)
      (t.attr w name) := by
  cases hv with
  | space hr =>
    rcases optionRel_cases (LinkedNamed.get? (h.scope hr) name) with ⟨hs, ht⟩ | ⟨_, _, hs, ht, hxy⟩
    · simp only [Store.attr, hs, ht, Option.map_none]
      exact .fail rfl
    · simp only [Store.attr, hs, ht, Option.map_some]
      exact .ok ⟨ids, le_rfl, hxy, h⟩
  | exception _ kind hargs =>
    simp only [Store.attr]
    cases name == "args"
    · exact .fail rfl
    · exact .ok ⟨ids, le_rfl, .tuple hargs, h⟩
  | function =>
    simp only [Store.attr]
    cases name == "__name__"
    · exact .fail rfl
    · exact .ok ⟨ids, le_rfl, .str _, h⟩
  | code _ unit =>
    simp only [Store.attr]
    cases name == "co_name"
    · exact .fail rfl
    · exact .ok ⟨ids, le_rfl, .str _, h⟩
  | @hook g _ hij =>
    simp only [Store.attr]
    cases g.kind.call? name with
    | none => exact .fail rfl
    | some call => exact .ok (h.newMethod hij call)
  | _ => exact .fail rfl

theorem setAttr (h : Store.Linked K hidden ids s t) (hv : v.Linked K ids w) (name : String)
    (hu : u.Linked K ids u') :
    ExceptLinked K ids (Store.Linked K hidden ids) (s.setAttr v name u) (t.setAttr w name u') := by
  cases hv with
  | space hr => exact .ok (h.bindName hr name hu)
  | _ => exact .fail rfl

end Store.Linked

/-! ### Items -/

theorem position_linked (what : Indexed) (length : Nat) (hv : v.Linked K ids w) :
    ExceptLinked K ids Eq (position what length v) (position what length w) := by
  unfold position
  rw [hv.asInt?_eq, hv.typeName_eq]
  cases w.asInt? with
  | none => exact .fail rfl
  | some i =>
    dsimp only
    generalize (if i.toInt < 0 then i.toInt + length else i.toInt) = j
    split_ifs
    · exact .ok rfl
    · exact .fail rfl

theorem itemAt_linked (what : Indexed) (hvs : LinkedAll K ids vs ws) (hv : v.Linked K ids w) :
    ExceptLinked K ids (Value.Linked K ids) (itemAt what vs v) (itemAt what ws w) := by
  unfold itemAt
  rw [hvs.length_eq]
  refine (position_linked what ws.length hv).bind fun i _ hi => ?_
  subst hi
  rcases optionRel_cases (getElem?_rel hvs i) with ⟨hs, ht⟩ | ⟨_, _, hs, ht, hxy⟩
  · simp only [hs, ht]
    exact .fail rfl
  · simp only [hs, ht]
    exact .ok hxy

section Pairs

variable {same same' : Value → Value → Bool} {pairs pairs' : List (Value × Value)}

theorem findPair?_rel (hsame : Store.Linked.SameAnswers K ids same same') (hv : v.Linked K ids w)
    (h : Forall₂ (LinkedPair K ids) pairs pairs') :
    Option.Rel (Value.Linked K ids) (findPair? same v pairs) (findPair? same' w pairs') := by
  unfold findPair?
  induction h with
  | nil => exact .none
  | @cons p q _ _ hpq _ ih =>
    rw [find?_cons, find?_cons, hsame _ _ _ _ hpq.1 hv]
    cases same' q.1 w with
    | true => exact .some hpq.2
    | false => exact ih

theorem insertPair_linked (hsame : Store.Linked.SameAnswers K ids same same')
    (hv : v.Linked K ids w) (hu : u.Linked K ids u')
    (h : Forall₂ (LinkedPair K ids) pairs pairs') :
    Forall₂ (LinkedPair K ids) (insertPair same v u pairs) (insertPair same' w u' pairs') := by
  induction h with
  | nil => exact .cons ⟨hv, hu⟩ .nil
  | @cons p q _ _ hpq hrest ih =>
    unfold insertPair
    rw [hsame _ _ _ _ hpq.1 hv]
    split_ifs
    · exact .cons ⟨hpq.1, hu⟩ hrest
    · exact .cons hpq ih

end Pairs

namespace Store.Linked

variable (h : Store.Linked K hidden ids s t)
include h

theorem item (hv : v.Linked K ids w) (hu : u.Linked K ids u') :
    ExceptLinked K ids (Value.Linked K ids) (s.item v u) (t.item w u') := by
  cases hv with
  | tuple hvs => exact itemAt_linked .tuple hvs hu
  | list hr => exact itemAt_linked .list (h.list hr) hu
  | str x => exact itemAt_linked .string (linkedAll_str _) hu
  | dict hr =>
    rcases optionRel_cases (findPair?_rel h.sameAnswers_equals hu (h.dict hr)) with
      ⟨hs, ht⟩ | ⟨_, _, hs, ht, hxy⟩
    · simp only [Store.item, hs, ht]
      exact .error (.missingKey hu)
    · simp only [Store.item, hs, ht]
      exact .ok hxy
  | space hr =>
    have hmissing : ExceptLinked K ids (Value.Linked K ids) (.error (.missingKey u))
        (.error (.missingKey u')) := .error (.missingKey hu)
    cases hu with
    | str x =>
      rcases optionRel_cases (LinkedNamed.get? (h.scope hr) x) with ⟨hs, ht⟩ | ⟨_, _, hs, ht, hxy⟩
      · simp only [Store.item, hs, ht]
        exact hmissing
      · simp only [Store.item, hs, ht]
        exact .ok hxy
    | _ => exact hmissing
  | _ => exact .fail rfl

theorem searchSettles_eq (held : Option DictRef) (hu : u.Linked K ids u')
    {pairs pairs' : List (Value × Value)} (hpairs : Forall₂ (LinkedPair K ids) pairs pairs') :
    s.searchSettles held u pairs = t.searchSettles held u' pairs' := by
  induction hpairs with
  | nil => rfl
  | cons hp _ ih =>
    simp only [Store.searchSettles, h.sameAnswers_settles held _ _ _ _ hp.1 hu,
      h.sameAnswers_equals _ _ _ _ hp.1 hu, ih]

theorem itemSettles_eq (hv : v.Linked K ids w) (hu : u.Linked K ids u') :
    s.itemSettles v u = t.itemSettles w u' := by
  cases hv with
  | dict hr => exact h.searchSettles_eq none hu (h.dict hr)
  | _ => rfl

theorem setItemSettles_eq (hv : v.Linked K ids w) (hu : u.Linked K ids u') :
    s.setItemSettles v u = t.setItemSettles w u' := by
  cases hv with
  | dict hr => exact h.searchSettles_eq _ hu (h.dict hr)
  | _ => rfl

theorem setPair {r : DictRef} (hr : K.dicts r) (hv : v.Linked K ids w) (hu : u.Linked K ids u') :
    Store.Linked K hidden ids (s.setPair r v u) (t.setPair r w u') :=
  h.setDict r (insertPair_linked h.sameAnswers_equals hv hu (h.dict hr))

theorem setItem (hv : v.Linked K ids w) (hv' : v'.Linked K ids w') (hu : u.Linked K ids u') :
    ExceptLinked K ids (Store.Linked K hidden ids) (s.setItem v v' u) (t.setItem w w' u') := by
  cases hv with
  | @list r hr =>
    simp only [Store.setItem]
    rw [(h.list hr).length_eq]
    refine (position_linked .list _ hv').bind fun i _ hi => ?_
    subst hi
    exact .ok (h.setList r (set_rel (h.list hr) i hu))
  | dict hr => exact .ok (h.setPair hr hv' hu)
  | space hr =>
    cases hv' with
    | str x => exact .ok (h.bindName hr x hu)
    | _ => exact .fail rfl
  | _ => exact .fail rfl

end Store.Linked

/-! ### Operators -/

theorem ExceptLinked.map {R : α → α' → Prop} {R' : β → β' → Prop} {x : Except Failure α}
    {x' : Except Failure α'} {g : α → β} {g' : α' → β'} (hx : ExceptLinked K ids R x x')
    (hg : ∀ a a', R a a' → R' (g a) (g' a')) : ExceptLinked K ids R' (x.map g) (x'.map g') := by
  cases hx with
  | ok h => exact .ok (hg _ _ h)
  | error h => exact .error h

theorem onInts_linked (op : ArithOp) (x y : Int64) :
    ExceptLinked K ids Eq (op.onInts x y) (op.onInts x y) := by
  refine .of_eq fun f hf => ?_
  cases op with
  | divide | modulo =>
    simp only [ArithOp.onInts] at hf
    split_ifs at hf
    · cases hf
      rfl
    · split at hf
      · cases hf
      · cases hf
        rfl
  | _ =>
    simp only [ArithOp.onInts] at hf
    split at hf
    · cases hf
    · cases hf
      rfl

theorem onFloats_linked (op : ArithOp) (x y : Binary64) :
    ExceptLinked K ids Eq (op.onFloats x y) (op.onFloats x y) := by
  refine .of_eq fun f hf => ?_
  cases op with
  | divide | modulo =>
    simp only [ArithOp.onFloats] at hf
    split_ifs at hf
    cases hf
    rfl
  | _ => cases hf

namespace Store.Linked

theorem join (h : Store.Linked K hidden ids s t) (op : ArithOp) : v.Linked K ids w →
    u.Linked K ids u' → ExceptLinked K ids (LinkedWith K hidden ids (Value.Linked K))
      (match op, v, u with
        | .add, .str x, .str y => .ok (.str (x ++ y), s)
        | .add, .tuple x, .tuple y => .ok (.tuple (x ++ y), s)
        | .add, .list x, .list y => .ok (s.newList (s.list x ++ s.list y))
        | _, _, _ => .error (.operandTypes op v.typeName u.typeName))
      (match op, w, u' with
        | .add, .str x, .str y => .ok (.str (x ++ y), t)
        | .add, .tuple x, .tuple y => .ok (.tuple (x ++ y), t)
        | .add, .list x, .list y => .ok (t.newList (t.list x ++ t.list y))
        | _, _, _ => .error (.operandTypes op w.typeName u'.typeName)) := by
  intro hv hu
  have htypes : ExceptLinked K ids (LinkedWith K hidden ids (Value.Linked K))
      (.error (.operandTypes op v.typeName u.typeName))
      (.error (.operandTypes op w.typeName u'.typeName)) := by
    rw [hv.typeName_eq, hu.typeName_eq]
    exact .fail rfl
  cases op with
  | add =>
    cases hv with
    | str x =>
      cases hu with
      | str y => exact .ok ⟨ids, le_rfl, .str _, h⟩
      | _ => exact htypes
    | tuple hvs =>
      cases hu with
      | tuple hus => exact .ok ⟨ids, le_rfl, .tuple (rel_append hvs hus), h⟩
      | _ => exact htypes
    | list hr =>
      cases hu with
      | list hr' => exact .ok (h.newList (rel_append (h.list hr) (h.list hr')))
      | _ => exact htypes
    | _ => exact htypes
  | _ => exact htypes

theorem arith (h : Store.Linked K hidden ids s t) (op : ArithOp) (hv : v.Linked K ids w)
    (hu : u.Linked K ids u') :
    ExceptLinked K ids (LinkedWith K hidden ids (Value.Linked K)) (s.arith op v u)
      (t.arith op w u') := by
  unfold Store.arith
  rw [hv.asInt?_eq, hu.asInt?_eq, hv.asFloat?_eq, hu.asFloat?_eq]
  rcases w.asInt? with _ | i <;> rcases u'.asInt? with _ | j
  case some.some =>
    exact (onInts_linked op i j).map fun n m hn => ⟨ids, le_rfl, hn ▸ .int n, h⟩
  all_goals
    rcases w.asFloat? with _ | x <;> rcases u'.asFloat? with _ | y
    case some.some =>
      exact (onFloats_linked op x y).map fun r q hr => ⟨ids, le_rfl, hr ▸ .float r, h⟩
    all_goals exact h.join op hv hu

end Store.Linked

theorem Value.Linked.negate (hv : v.Linked K ids w) :
    ExceptLinked K ids (Value.Linked K ids) v.negate w.negate := by
  have hnumber (n : Int64) : ExceptLinked K ids (Value.Linked K ids) (Value.int n).negate
      (Value.int n).negate := by
    simp only [Value.negate, Value.asInt?]
    cases Checked.neg? n with
    | none => exact .fail rfl
    | some m => exact .ok (.int m)
  cases hv with
  | float x => exact .ok (.float _)
  | int n => exact hnumber n
  | bool b => exact hnumber _
  | _ => exact .fail rfl

theorem Value.Linked.order?_eq (hv : v.Linked K ids w) (hu : u.Linked K ids u') :
    v.order? u = w.order? u' := by
  cases hv <;> cases hu <;> rfl

theorem order_linked (hv : v.Linked K ids w) (hu : u.Linked K ids u') (op : CompareOp) :
    ExceptLinked K ids Eq
      (match v.order? u with
        | none => .error (.unorderable op v.typeName u.typeName)
        | some none => .ok false
        | some (some o) => .ok (op.holds o))
      (match w.order? u' with
        | none => .error (.unorderable op w.typeName u'.typeName)
        | some none => .ok false
        | some (some o) => .ok (op.holds o)) := by
  rw [hv.order?_eq hu, hv.typeName_eq, hu.typeName_eq]
  cases w.order? u' with
  | none => exact .fail rfl
  | some o => cases o <;> exact .ok rfl

theorem Store.Linked.compare (h : Store.Linked K hidden ids s t) (op : CompareOp)
    (hv : v.Linked K ids w) (hu : u.Linked K ids u') :
    ExceptLinked K ids Eq (s.compare op v u) (t.compare op w u') := by
  have hequals := h.sameAnswers_equals v w u u' hv hu
  cases op with
  | eq => exact .ok hequals
  | ne => exact .ok (congrArg (!·) hequals)
  | _ => exact order_linked hv hu _

theorem Store.Linked.compareSettles_eq (h : Store.Linked K hidden ids s t) (op : CompareOp)
    (hv : v.Linked K ids w) (hu : u.Linked K ids u') :
    s.compareSettles op v u = t.compareSettles op w u' := by
  have hsettles := h.sameAnswers_settles none v w u u' hv hu
  cases op with
  | eq | ne => exact hsettles
  | _ => rfl

/-! ### Exceptions -/

theorem Store.Linked.normalize (h : Store.Linked K hidden ids s t) (hv : v.Linked K ids w)
    (hu : u.Linked K ids u') :
    ExceptLinked K ids (LinkedWith K hidden ids (ExceptionOf.Linked K)) (s.normalize v u)
      (t.normalize w u') := by
  cases hv with
  | exception hij kind hargs =>
    cases hu with
    | none => exact .ok ⟨ids, le_rfl, .exception hij kind hargs, h⟩
    | _ => exact .fail rfl
  | exceptionType kind =>
    have hone : ExceptLinked K ids (LinkedWith K hidden ids (ExceptionOf.Linked K))
        (.ok (s.newException kind [u])) (.ok (t.newException kind [u'])) :=
      .ok (h.newException kind (.cons hu .nil))
    cases hu with
    | none => exact .ok (h.newException kind .nil)
    | tuple hvs => exact .ok (h.newException kind hvs)
    | exception hij kind' hargs =>
      cases hof : kind' == kind || kind == "Exception" with
      | true =>
        simp only [Store.normalize, ExceptionOf.isOf, hof, if_true]
        exact .ok ⟨ids, le_rfl, .exception hij kind' hargs, h⟩
      | false =>
        simp only [Store.normalize, ExceptionOf.isOf, hof, Bool.false_eq_true, if_false]
        exact hone
    | _ => exact hone
  | _ => exact .fail rfl

/-! ### Hooks -/

inductive Operand.Linked (K : Sharing) (ids : Pairing) : Operand → Operand → Prop
  | value {v w : Value} (h : v.Linked K ids w) : Linked K ids (.value v) (.value w)
  | name (x : String) : Linked K ids (.name x) (.name x)
  | arguments {vs ws : List Value} (h : LinkedAll K ids vs ws) :
      Linked K ids (.arguments vs) (.arguments ws)
  | argSpec (n : UInt32) : Linked K ids (.argSpec n) (.argSpec n)

/-- The entries of the logs tell the same. -/
def Event.Linked (K : Sharing) (ids : Pairing) (e e' : Event) : Prop :=
  e = e' ∨ e.call = e'.call ∧ ∃ hidden ids', ids' ≤ ids ∧
    Forall₂ (Operand.Linked K ids') e.operands e'.operands ∧
      Store.Linked K hidden ids' e.store e'.store

/-- The stores correspond, and the logs do if they are shared. -/
structure Memory.Linked (K : Sharing) (hidden : ScopeRef → Bindings) (ids : Pairing)
    (m n : Memory) : Prop where
  store : Store.Linked K hidden ids m.store n.store
  log : K.logs → Forall₂ (Event.Linked K ids) m.log n.log

inductive ResultLinked {ε ε' σ σ' α α' : Type} (ids : Pairing) (E : Pairing → ε → ε' → Prop)
    (S : Pairing → σ → σ' → Prop) (R : Pairing → α → α' → Prop) :
    EStateM.Result ε σ α → EStateM.Result ε' σ' α' → Prop
  | ok {ids' : Pairing} {a : α} {b : α'} {m : σ} {n : σ'} (hle : ids ≤ ids') (h : R ids' a b)
      (hm : S ids' m n) : ResultLinked ids E S R (.ok a m) (.ok b n)
  | error {ids' : Pairing} {e : ε} {e' : ε'} {m : σ} {n : σ'} (hle : ids ≤ ids') (h : E ids' e e')
      (hm : S ids' m n) : ResultLinked ids E S R (.error e m) (.error e' n)

theorem ResultLinked.of_le {ε ε' σ σ' : Type} {E : Pairing → ε → ε' → Prop}
    {S : Pairing → σ → σ' → Prop} {R : Pairing → α → α' → Prop} {p : EStateM.Result ε σ α}
    {q : EStateM.Result ε' σ' α'} (h : ResultLinked ids' E S R p q) (hle : ids ≤ ids') :
    ResultLinked ids E S R p q := by
  cases h with
  | ok hle' h hm => exact .ok (hle.trans hle') h hm
  | error hle' h hm => exact .error (hle.trans hle') h hm

theorem Event.Linked.mono {e e' : Event} (h : e.Linked K ids e') (hle : ids ≤ ids') :
    e.Linked K ids' e' := by
  rcases h with rfl | ⟨hcall, hidden, ids₀, hle₀, h⟩
  · exact .inl rfl
  · exact .inr ⟨hcall, hidden, ids₀, hle₀.trans hle, h⟩

theorem Memory.Linked.withStore {m n : Memory} (h : m.Linked K hidden ids n) (hle : ids ≤ ids')
    (hst : Store.Linked K hidden ids' s t) :
    Memory.Linked K hidden ids' { m with store := s } { n with store := t } :=
  ⟨hst, fun hlogs => (h.log hlogs).imp fun _ _ he => he.mono hle⟩

theorem OperandKind.check_linked (kind : OperandKind) (hv : v.Linked K ids w) :
    ExceptLinked K ids (Operand.Linked K ids) (kind.check v) (kind.check w) := by
  cases kind with
  | value => exact .ok (.value hv)
  | name =>
    cases hv with
    | str x => exact .ok (.name x)
    | _ => exact .fail rfl
  | arguments =>
    cases hv with
    | tuple hvs => exact .ok (.arguments hvs)
    | _ => exact .fail rfl
  | argSpec =>
    simp only [OperandKind.check, hv.asInt?_eq]
    cases w.asInt? with
    | none => exact .fail rfl
    | some n =>
      dsimp only
      split_ifs
      · exact .ok (.argSpec _)
      · exact .fail rfl

theorem checkOperands_linked (kinds : List OperandKind) (hvs : LinkedAll K ids vs ws) :
    ExceptLinked K ids (Forall₂ (Operand.Linked K ids)) (checkOperands kinds vs)
      (checkOperands kinds ws) := by
  induction kinds generalizing vs ws with
  | nil => exact .ok .nil
  | cons kind kinds ih =>
    cases hvs with
    | nil => exact .ok .nil
    | cons hv hvs =>
      simp only [checkOperands]
      exact (kind.check_linked hv).bind fun _ _ ho => (ih hvs).bind fun _ _ hos =>
        .ok (.cons ho hos)

theorem HookCall.operands_linked (call : HookCall) (kind : HookKind) (hvs : LinkedAll K ids vs ws) :
    ExceptLinked K ids (Forall₂ (Operand.Linked K ids)) (call.operands kind vs)
      (call.operands kind ws) := by
  unfold HookCall.operands
  rw [hvs.length_eq]
  dsimp only
  split_ifs
  · exact checkOperands_linked _ hvs
  · exact .fail rfl

theorem Store.Linked.perform (h : Store.Linked K hidden ids s t) (answer : HookAnswer)
    {os os' : List Operand} (hos : Forall₂ (Operand.Linked K ids) os os') :
    ExceptLinked K ids (Store.Linked K hidden ids) (s.perform answer os)
      (t.perform answer os') := by
  cases answer with
  | accept => exact .ok h
  | refuse | raise => exact .fail rfl
  | store =>
    rcases hos with _ | ⟨ha, _ | ⟨hb, _ | ⟨hc, _ | ⟨_, _⟩⟩⟩⟩
    · exact .fail rfl
    · cases ha <;> exact .fail rfl
    · cases ha <;> cases hb <;> exact .fail rfl
    · cases ha with
      | value hv =>
        cases hb with
        | name x =>
          cases hc with
          | value hu => exact h.setAttr hv x hu
          | _ => exact .fail rfl
        | value hv' =>
          cases hc with
          | value hu =>
            simp only [Store.perform, h.setItemSettles_eq hv hv']
            split_ifs
            · exact h.setItem hv hv' hu
            · exact .fail rfl
          | _ => exact .fail rfl
        | _ => exact .fail rfl
      | _ => exact .fail rfl
    · cases ha <;> cases hb <;> cases hc <;> exact .fail rfl

namespace Memory.Linked

variable {m n : Memory}

theorem reported (h : m.Linked K hidden ids n) (g : Hook) (j : Nat) (call : HookCall)
    {os os' : List Operand} (hos : Forall₂ (Operand.Linked K ids) os os') :
    (m.reported g call os).Linked K hidden ids (n.reported { g with id := j } call os') := by
  unfold Memory.reported
  dsimp only
  split_ifs
  · exact ⟨h.store, fun hlogs => .cons (.inr ⟨rfl, hidden, ids, le_rfl, hos, h.store⟩)
      (h.log hlogs)⟩
  · exact h

theorem callMethod (h : m.Linked K hidden ids n) (g : Hook) (j : Nat) (call : HookCall)
    (hvs : LinkedAll K ids vs ws) :
    ResultLinked ids (Failure.Linked K) (Memory.Linked K hidden) (Value.Linked K)
      (Memory.callMethod g call vs m) (Memory.callMethod { g with id := j } call ws n) := by
  rcases (call.operands_linked g.kind hvs).cases with ⟨os, os', hs, ht, hos⟩ | ⟨_, _, hs, ht, hfg⟩
  · have hreported := h.reported g j call hos
    rcases (h.store.perform (g.answer call) hos).cases with
      ⟨_, _, hs', ht', hst⟩ | ⟨_, _, hs', ht', hfg⟩
    · simp only [Memory.callMethod, hs, ht, hs', ht']
      exact .ok le_rfl .none (hreported.withStore le_rfl hst)
    · simp only [Memory.callMethod, hs, ht, hs', ht']
      exact .error le_rfl hfg hreported
  · simp only [Memory.callMethod, hs, ht]
    exact .error le_rfl hfg h

end Memory.Linked

/-! ### Calls -/

theorem Store.Linked.length?_eq (h : Store.Linked K hidden ids s t) (hv : v.Linked K ids w) :
    s.length? v = t.length? w := by
  cases hv with
  | tuple hvs => exact congrArg some hvs.length_eq
  | list hr => exact congrArg some (h.list hr).length_eq
  | dict hr => exact congrArg some (h.dict hr).length_eq
  | space hr => exact congrArg some (h.scope hr).length_eq
  | _ => rfl

theorem rangeBounds_linked (hvs : LinkedAll K ids vs ws) :
    ExceptLinked K ids Eq (rangeBounds vs) (rangeBounds ws) := by
  have hints : vs.mapM Value.asInt? = ws.mapM Value.asInt? := by
    induction hvs with
    | nil => rfl
    | cons hv _ ih => rw [mapM_cons, mapM_cons, hv.asInt?_eq, ih]
  unfold rangeBounds
  rw [hints, hvs.length_eq]
  refine .of_eq fun f hf => ?_
  split at hf <;> cases hf <;> rfl

theorem Store.Linked.callBuiltin (h : Store.Linked K hidden ids s t) (hglobals : K.scopes globals)
    (b : Builtin) (hvs : LinkedAll K ids vs ws) {kwargs kwargs' : Keywords}
    (hkwargs : Forall₂ (LinkedNamed K ids) kwargs kwargs') :
    ExceptLinked K ids (LinkedWith K hidden ids (Value.Linked K))
      (s.callBuiltin globals b vs kwargs) (t.callBuiltin globals b ws kwargs') := by
  have hnone : kwargs.isEmpty = kwargs'.isEmpty := by
    cases hkwargs <;> rfl
  have hempty : vs.isEmpty = ws.isEmpty := by
    cases hvs <;> rfl
  unfold Store.callBuiltin
  rw [hnone, hempty]
  by_cases hk : b ≠ .nameSpace ∧ !kwargs'.isEmpty
  · rw [if_pos hk, if_pos hk]
    exact .fail rfl
  rw [if_neg hk, if_neg hk]
  cases b with
  | globals =>
    cases hvs with
    | nil => exact .ok ⟨ids, le_rfl, .space hglobals, h⟩
    | cons => exact .fail rfl
  | len =>
    cases hvs with
    | nil => exact .fail rfl
    | @cons v w _ _ hv hvs =>
      cases hvs with
      | nil =>
        dsimp only
        rw [h.length?_eq hv, hv.typeName_eq]
        cases t.length? w with
        | none => exact .fail rfl
        | some n => exact .ok ⟨ids, le_rfl, .int _, h⟩
      | cons _ hvs =>
        dsimp only [length_cons]
        rw [hvs.length_eq]
        exact .fail rfl
  | range =>
    refine (rangeBounds_linked hvs).bind fun p _ hp => ?_
    subst hp
    obtain ⟨start, stop, step⟩ := p
    dsimp only
    split_ifs
    · exact .fail rfl
    · refine .ok (h.newList ?_)
      exact forall₂_map_left_iff.2 (forall₂_map_right_iff.2 (forall₂_same.2 fun n _ => .int n))
  | nameSpace =>
    cases hvs with
    | nil =>
      obtain ⟨hnew, hr, hst⟩ := h.newScope (LinkedNamed.ofList hkwargs)
      refine .ok ⟨ids, le_rfl, ?_, hst⟩
      show (Value.space _).Linked K ids (.space (t.newScope (Bindings.ofList kwargs')).1)
      rw [hnew]
      exact .space hr
    | cons => exact .fail rfl

theorem Memory.Linked.callValue {m n : Memory} (h : m.Linked K hidden ids n)
    (hglobals : K.scopes globals) (hv : v.Linked K ids w) (hvs : LinkedAll K ids vs ws)
    {kwargs kwargs' : Keywords}
    (hkwargs : Forall₂ (LinkedNamed K ids) kwargs kwargs') :
    ResultLinked ids (Failure.Linked K) (Memory.Linked K hidden) (Value.Linked K)
      (Memory.callValue globals v vs kwargs m) (Memory.callValue globals w ws kwargs' n) := by
  have hfail {f : Failure} (hf : f.args = [.str f.message]) :
      ResultLinked ids (Failure.Linked K) (Memory.Linked K hidden) (Value.Linked K)
        (.error f m) (.error f n) := .error le_rfl (.of_args hf) h
  cases hv with
  | builtin b =>
    rcases (h.store.callBuiltin hglobals b hvs hkwargs).cases with
      ⟨p, q, hs, ht, ids', hle, hpq, hst⟩ | ⟨f, g, hs, ht, hfg⟩
    · simp only [Memory.callValue, hs, ht]
      exact .ok hle hpq (h.withStore hle hst)
    · simp only [Memory.callValue, hs, ht]
      exact .error le_rfl hfg h
  | @method _ _ j g _ _ call =>
    cases hkwargs with
    | nil => exact h.callMethod g j call hvs
    | cons => exact hfail rfl
  | exceptionType kind =>
    cases hkwargs with
    | nil =>
      obtain ⟨ids', hle, he, hst⟩ := h.store.newException kind hvs
      exact .ok hle he (h.withStore hle hst)
    | cons => exact hfail rfl
  | _ => exact hfail rfl

/-! ### Parameters -/

structure Binding.Linked (K : Sharing) (ids : Pairing) (b b' : Binding) : Prop where
  params : LinkedAll K ids b.params b'.params
  rest : LinkedAll K ids b.rest b'.rest
  extra : Forall₂ (LinkedNamed K ids) b.extra b'.extra

abbrev LinkedSlots (K : Sharing) (ids : Pairing) : List (Option Value) →
    List (Option Value) → Prop :=
  Forall₂ (Option.Rel (Value.Linked K ids))

section Parameters

variable {slots slots' : List (Option Value)} {extra extra' kwargs kwargs' : Keywords}

theorem LinkedSlots.mono (hle : ids ≤ ids') (h : LinkedSlots K ids slots slots') :
    LinkedSlots K ids' slots slots' :=
  h.imp fun _ _ hv => by
    cases hv with
    | none => exact .none
    | some hv => exact .some (hv.mono hle)

theorem bindKeywords_linked (c : Code) (hkwargs : Forall₂ (LinkedNamed K ids) kwargs kwargs')
    (hslots : LinkedSlots K ids slots slots')
    (hextra : Forall₂ (LinkedNamed K ids) extra extra') :
    ExceptLinked K ids
      (fun p q => LinkedSlots K ids p.1 q.1 ∧
        Forall₂ (LinkedNamed K ids) p.2 q.2)
      (bindKeywords c kwargs slots extra) (bindKeywords c kwargs' slots' extra') := by
  induction hkwargs generalizing slots slots' extra extra' with
  | nil => exact .ok ⟨hslots, rel_reverse hextra⟩
  | @cons p q _ _ hpq _ ih =>
    obtain ⟨key, v⟩ := p
    obtain ⟨key', w⟩ := q
    obtain ⟨rfl : key = key', hvw : v.Linked K ids w⟩ := hpq
    simp only [bindKeywords]
    cases c.params.findIdx? (· == key) with
    | none =>
      dsimp only
      split_ifs
      · exact ih hslots (.cons ⟨rfl, hvw⟩ hextra)
      · exact .fail rfl
    | some i =>
      have hset := ih (set_rel hslots i (.some hvw)) hextra
      rcases optionRel_cases (getElem?_rel hslots i) with ⟨hs, ht⟩ | ⟨x, y, hs, ht, hxy⟩
      · simp only [hs, ht]
        exact hset
      · cases hxy with
        | none =>
          simp only [hs, ht]
          exact hset
        | some =>
          simp only [hs, ht]
          exact .fail rfl

theorem bindDefaults_linked (c : Code) (params : List String)
    {defaults defaults' : List (Option Value)}
    (hslots : LinkedSlots K ids slots slots')
    (hdefaults : LinkedSlots K ids defaults defaults') :
    ExceptLinked K ids (LinkedAll K ids) (bindDefaults c params slots defaults)
      (bindDefaults c params slots' defaults') := by
  induction params generalizing slots slots' defaults defaults' with
  | nil => exact .ok .nil
  | cons x params ih =>
    cases hslots with
    | nil => exact .ok .nil
    | cons hslot hslots =>
      cases hdefaults with
      | nil => exact .ok .nil
      | cons hdefault hdefaults =>
        cases hslot with
        | some hv => exact (ih hslots hdefaults).bind fun _ _ hvs => .ok (.cons hv hvs)
        | none =>
          cases hdefault with
          | some hv => exact (ih hslots hdefaults).bind fun _ _ hvs => .ok (.cons hv hvs)
          | none => exact .fail rfl

theorem map_some_rel (hvs : LinkedAll K ids vs ws) :
    LinkedSlots K ids (vs.map some) (ws.map some) :=
  rel_map (fun _ _ => .some) hvs

theorem replicate_none_rel (n : Nat) :
    LinkedSlots K ids (List.replicate n none)
      (List.replicate n none) :=
  forall₂_same.2 fun x hx => by
    rw [eq_of_mem_replicate hx]
    exact .none

theorem bindArguments_linked (c : Code) {defaults defaults' : List Value}
    (hdefaults : LinkedAll K ids defaults defaults') (hvs : LinkedAll K ids vs ws)
    (hkwargs : Forall₂ (LinkedNamed K ids) kwargs kwargs') :
    ExceptLinked K ids (Binding.Linked K ids) (bindArguments c defaults vs kwargs)
      (bindArguments c defaults' ws kwargs') := by
  unfold bindArguments
  rw [hvs.length_eq]
  dsimp only
  split_ifs
  · exact .fail rfl
  · refine (bindKeywords_linked c hkwargs ?_ .nil).bind fun p q hpq => ?_
    · exact rel_append (map_some_rel (forall₂_take _ hvs)) (replicate_none_rel _)
    · refine (bindDefaults_linked c c.params hpq.1 ?_).bind fun _ _ hparams => ?_
      · unfold alignDefaults
        rw [hdefaults.length_eq]
        exact rel_append (replicate_none_rel _) (map_some_rel (forall₂_take _ hdefaults))
      · exact .ok ⟨hparams, forall₂_drop _ hvs, hpq.2⟩

end Parameters

end Bytewright
