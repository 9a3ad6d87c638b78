import Bytewright.Proofs.Link.Run

/-!
# Closed stores

The values of a closed store correspond to themselves, so two runs can be compared that start from
the same store.
-/

namespace Bytewright

open List

/-! ### References -/

mutual

/-- Every object the value holds is in the store. -/
def Value.within (s : Store) : Value → Bool
  | .tuple items => withinAll s items
  | .list r => r.index < s.lists.size
  | .dict r => r.index < s.dicts.size
  | .space r => r.index < s.scopes.size
  | .code id _ => id < s.nextId
  | .function ⟨id, _, defaults, globals, closure⟩ =>
    id < s.nextId && globals.index < s.scopes.size && withinAll s defaults && withinAll s closure
  | .exception ⟨id, _, args⟩ => id < s.nextId && withinAll s args
  | .traceback id _ => id < s.nextId
  | .iterator r => r.index < s.iters.size
  | .hook h => h.id < s.nextId
  | .method id h _ => id < s.nextId && h.id < s.nextId
  | _ => true

def withinAll (s : Store) : List Value → Bool
  | [] => true
  | v :: vs => v.within s && withinAll s vs

end

/-- Every object held in the store is in it. -/
def Store.closed (s : Store) : Bool :=
  s.lists.all (withinAll s) &&
    s.dicts.all (fun pairs => pairs.all fun p => p.1.within s && p.2.within s) &&
    s.scopes.all (fun bindings => bindings.all fun p => p.2.within s) &&
    s.iters.all (withinAll s)

def Sharing.whole (scopes : ScopeRef → Prop) (exact : Prop) (logs : Prop := True) : Sharing where
  lists _ := True
  dicts _ := True
  scopes := scopes
  iters _ := True
  functions := True
  exact := exact
  logs := logs

section LinkedSelf

variable {s : Store} {scopes : ScopeRef → Prop} {exact logs : Prop} {ids : Pairing}

mutual

theorem Value.linked_self (hscopes : ∀ r, r.index < s.scopes.size → scopes r)
    (hids : ∀ i < s.nextId, ids i i) :
    ∀ v : Value, v.within s = true → v.Linked (.whole scopes exact logs) ids v
  | .none, _ => .none
  | .bool b, _ => .bool b
  | .int n, _ => .int n
  | .float x, _ => .float x
  | .str t, _ => .str t
  | .tuple items, h => .tuple (linkedAll_self hscopes hids items h)
  | .list _, _ => .list trivial
  | .dict _, _ => .dict trivial
  | .space r, h => .space (hscopes r (of_decide_eq_true h))
  | .code i unit, h => .code (hids i (of_decide_eq_true h)) unit
  | .function ⟨i, unit, defaults, r, closure⟩, h => by
    simp only [Value.within, Bool.and_eq_true, decide_eq_true_eq] at h
    obtain ⟨⟨⟨hi, hr⟩, hdefaults⟩, hclosure⟩ := h
    exact .function trivial (hids i hi) (hscopes r hr) (linkedAll_self hscopes hids _ hdefaults)
      (linkedAll_self hscopes hids _ hclosure)
  | .builtin b, _ => .builtin b
  | .exceptionType kind, _ => .exceptionType kind
  | .exception ⟨i, kind, args⟩, h => by
    simp only [Value.within, Bool.and_eq_true, decide_eq_true_eq] at h
    exact .exception (hids i h.1) kind (linkedAll_self hscopes hids args h.2)
  | .traceback i entries, h => .traceback (hids i (of_decide_eq_true h)) entries
  | .iterator _, _ => .iterator trivial
  | .hook _, h => .hook (hids _ (of_decide_eq_true h))
  | .method _ _ call, h => by
    simp only [Value.within, Bool.and_eq_true, decide_eq_true_eq] at h
    exact .method (hids _ h.1) (hids _ h.2) call

theorem linkedAll_self (hscopes : ∀ r, r.index < s.scopes.size → scopes r)
    (hids : ∀ i < s.nextId, ids i i) :
    ∀ vs : List Value, withinAll s vs = true → LinkedAll (.whole scopes exact logs) ids vs vs
  | [], _ => .nil
  | v :: vs, h => by
    simp only [withinAll, Bool.and_eq_true] at h
    exact .cons (Value.linked_self hscopes hids v h.1) (linkedAll_self hscopes hids vs h.2)

end

theorem CellsLinked.self {α : Type} {E : α → α → Prop} {p : List α → Bool} {a : Array (List α)}
    (ha : a.all p = true) (hp : ∀ xs, p xs = true → List.Forall₂ E xs xs) :
    CellsLinked (fun _ => True) E a a where
  size_eq := rfl
  contents {i} _ := by
    rw [Array.getD_eq_getD_getElem?]
    cases hi : a[i]? with
    | none => exact .nil
    | some xs =>
      obtain ⟨hlt, rfl⟩ := Array.getElem?_eq_some_iff.1 hi
      exact hp _ (Array.all_eq_true.1 ha i hlt)
  beyond _ := trivial

theorem Store.cells_linked_self (hs : s.closed = true)
    (hscopes : ∀ r, r.index < s.scopes.size → scopes r) (hids : ∀ i < s.nextId, ids i i) :
    CellsLinked (fun _ => True) (Value.Linked (.whole scopes exact logs) ids) s.lists s.lists ∧
      CellsLinked (fun _ => True) (LinkedPair (.whole scopes exact logs) ids) s.dicts s.dicts ∧
      CellsLinked (fun _ => True) (LinkedNamed (.whole scopes exact logs) ids) s.scopes s.scopes ∧
      CellsLinked (fun _ => True) (Value.Linked (.whole scopes exact logs) ids)
        s.iters s.iters := by
  simp only [Store.closed, Bool.and_eq_true] at hs
  obtain ⟨⟨⟨hlists, hdicts⟩, hnames⟩, hiters⟩ := hs
  have hvalue (v : Value) (hv : v.within s = true) : v.Linked (.whole scopes exact logs) ids v :=
    Value.linked_self hscopes hids v hv
  refine ⟨.self hlists (linkedAll_self hscopes hids), .self hdicts fun pairs hpairs => ?_,
    .self hnames fun bindings hbindings => ?_, .self hiters (linkedAll_self hscopes hids)⟩
  · refine forall₂_same.2 fun p hp => ?_
    have hp' := all_eq_true.1 hpairs p hp
    rw [Bool.and_eq_true] at hp'
    exact ⟨hvalue _ hp'.1, hvalue _ hp'.2⟩
  · exact forall₂_same.2 fun p hp => ⟨rfl, hvalue _ (all_eq_true.1 hbindings p hp)⟩

theorem Store.linked_self (hs : s.closed = true) (hidden : ScopeRef → Bindings) :
    Store.Linked (.whole (fun _ => True) exact logs) hidden (fun a b => a = b ∧ a < s.nextId)
      s s := by
  let ids : Pairing := fun a b => a = b ∧ a < s.nextId
  have hids (i : Nat) (hi : i < s.nextId) : ids i i := ⟨rfl, hi⟩
  obtain ⟨hlists, hdicts, hnames, hiters⟩ := Store.cells_linked_self hs (fun _ _ => trivial) hids
  refine ⟨hlists, hdicts, hnames, hiters, ⟨?_, ?_⟩, fun r hr => absurd trivial hr,
    fun _ => ⟨rfl, fun _ _ h => h.1⟩, fun _ a b h => ⟨h.2, h.1 ▸ h.2⟩⟩
  · rintro a _ a' _ ⟨rfl, -⟩ ⟨rfl, -⟩
    exact Iff.rfl
  · rintro a _ ⟨rfl, ha⟩
    exact .inl ⟨ha, ha⟩

theorem Store.linked_newScope (hs : s.closed = true) (b : Bindings) :
    Store.Linked (.whole (· ≠ ⟨s.scopes.size⟩) True) (fun _ => b) Eq (s.newScope b).2
      (s.newScope []).2 := by
  have hscopes (r : ScopeRef) (hr : r.index < s.scopes.size) : r ≠ ⟨s.scopes.size⟩ := by
    rintro rfl
    exact Nat.lt_irrefl _ hr
  have hids (i : Nat) (_ : i < s.nextId) : i = i := rfl
  obtain ⟨hlists, hdicts, hnames, hiters⟩ := Store.cells_linked_self hs hscopes hids
  refine ⟨hlists, hdicts, ⟨?_, fun {i} hi => ?_, fun {i} hi => ?_⟩, hiters,
    Pairing.sound_eq _, fun r hr => ?_, fun _ => ⟨rfl, fun _ _ h => h⟩,
    fun hexact => absurd trivial hexact⟩
  · simp only [Store.newScope, Array.size_push]
  · have hne : i ≠ s.scopes.size := fun heq => hi (congrArg ScopeRef.mk heq)
    simpa only [Store.newScope, Array.getD_eq_getD_getElem?, Array.getElem?_push, if_neg hne]
      using hnames.contents (i := i) trivial
  · simp only [Store.newScope, Array.size_push] at hi
    intro heq
    have hi' : i = s.scopes.size := congrArg ScopeRef.index heq
    omega
  · rw [not_not.1 hr]
    simp [Store.newScope, Store.scope]

end LinkedSelf

/-! ### Equality -/

variable {K : Sharing} {ids : Pairing}

mutual

theorem Value.Linked.eq (hids : ∀ a b, ids a b → a = b) {v w : Value} :
    v.Linked K ids w → v = w
  | hv => by
    cases hv with
    | tuple h => rw [LinkedAll.eq hids h]
    | code h | traceback h => rw [hids _ _ h]
    | hook h => rw [← hids _ _ h]
    | function _ h _ hdefaults hclosure =>
      rw [hids _ _ h, LinkedAll.eq hids hdefaults, LinkedAll.eq hids hclosure]
    | exception h _ hargs => rw [hids _ _ h, LinkedAll.eq hids hargs]
    | method h h' => rw [hids _ _ h, ← hids _ _ h']
    | _ => rfl

theorem LinkedAll.eq (hids : ∀ a b, ids a b → a = b) {vs ws : List Value} :
    LinkedAll K ids vs ws → vs = ws
  | .nil => rfl
  | .cons h hs => by rw [Value.Linked.eq hids h, LinkedAll.eq hids hs]

end

variable {α : Type} {hidden : ScopeRef → Bindings}

theorem Operand.Linked.eq (hids : ∀ a b, ids a b → a = b) {o o' : Operand}
    (h : o.Linked K ids o') : o = o' := by
  cases h with
  | value h | arguments h => rw [h.eq hids]
  | name => rfl
  | argSpec => rfl

theorem eq_of_forall₂ {E : α → α → Prop} (hE : ∀ x y, E x y → x = y) {xs ys : List α}
    (h : List.Forall₂ E xs ys) : xs = ys := by
  rw [← forall₂_eq_eq_eq]
  exact h.imp hE

/-- The stores differ in one scope at most. -/
def Store.SameBut (r : ScopeRef) (s t : Store) : Prop := t = s.setScope r (t.scope r)

/-- The same event, but for what is bound in the scope `r`. -/
structure Event.SameBut (r : ScopeRef) (e e' : Event) : Prop where
  call_eq : e.call = e'.call
  operands_eq : e.operands = e'.operands
  store : e.store.SameBut r e'.store

/-- The same memory, but for what is bound in the scope `r`. -/
structure Memory.SameBut (r : ScopeRef) (m n : Memory) : Prop where
  store : m.store.SameBut r n.store
  log : List.Forall₂ (Event.SameBut r) m.log n.log

theorem Store.SameBut.refl (r : ScopeRef) (s : Store) : s.SameBut r s := by
  have hset : s.scopes.setIfInBounds r.index (s.scopes.getD r.index []) = s.scopes := by
    ext i hi hi'
    · rw [Array.size_setIfInBounds]
    · rw [Array.getElem_setIfInBounds hi']
      split_ifs with h
      · subst h
        rw [Array.getD_eq_getD_getElem?, Array.getElem?_eq_getElem hi', Option.getD_some]
      · rfl
  rw [Store.SameBut, Store.setScope, Store.scope, hset]

section Cells

variable {shared : Nat → Prop} {E : α → α → Prop} {a b : Array (List α)}

theorem CellsLinked.getElem_eq (h : CellsLinked shared E a b) (hE : ∀ x y, E x y → x = y) {i : Nat}
    (hshared : shared i) (hi : i < a.size) (hi' : i < b.size) : a[i] = b[i] := by
  have hget := eq_of_forall₂ hE (h.contents hshared)
  simpa only [Array.getD_eq_getD_getElem?, Array.getElem?_eq_getElem hi,
    Array.getElem?_eq_getElem hi', Option.getD_some] using hget

theorem CellsLinked.eq (h : CellsLinked shared E a b) (hE : ∀ x y, E x y → x = y)
    (hshared : ∀ i, shared i) : a = b := by
  ext i hi hi'
  · rw [h.size_eq]
  · rw [h.getElem_eq hE (hshared i)]

end Cells

section Store

variable {s t : Store} {scopes : ScopeRef → Prop} {logs : Prop}

theorem Store.Linked.eq_withScopes (h : Store.Linked (.whole scopes True logs) hidden ids s t) :
    t = { s with scopes := t.scopes } := by
  obtain ⟨hid, hids⟩ := h.exact trivial
  have hvalue (v w : Value) (hvw : v.Linked (.whole scopes True logs) ids w) : v = w := hvw.eq hids
  have hlists := h.lists.eq hvalue fun _ => trivial
  have hiters := h.iters.eq hvalue fun _ => trivial
  have hdicts := h.dicts.eq (fun p q hpq => Prod.ext (hvalue _ _ hpq.1) (hvalue _ _ hpq.2))
    fun _ => trivial
  rw [hid, hlists, hiters, hdicts]

theorem Store.Linked.eq_of_binding (h : Store.Linked (.whole scopes True logs) hidden ids s t)
    (p q : String × Value)
    (hpq : p.1 = q.1 ∧ p.2.Linked (.whole scopes True logs) ids q.2) : p = q :=
  Prod.ext hpq.1 (hpq.2.eq (h.exact trivial).2)

theorem Store.Linked.sameBut {r : ScopeRef}
    (h : Store.Linked (.whole (· ≠ r) True) hidden ids s t) : s.SameBut r t := by
  have hscopes : t.scopes = s.scopes.setIfInBounds r.index (t.scope r) := by
    ext i hi hi'
    · rw [Array.size_setIfInBounds, h.scopes.size_eq]
    · rw [Array.getElem_setIfInBounds (h.scopes.size_eq ▸ hi)]
      split_ifs with hir
      · rw [Store.scope, hir, Array.getD_eq_getD_getElem?, Array.getElem?_eq_getElem hi,
          Option.getD_some]
      · rw [h.scopes.getElem_eq h.eq_of_binding fun heq => hir (by rw [← heq])]
  rw [Store.SameBut, Store.setScope, ← hscopes]
  exact h.eq_withScopes

theorem Store.Linked.eq (h : Store.Linked (.whole (fun _ => True) True logs) hidden ids s t) :
    s = t := by
  rw [h.eq_withScopes, ← h.scopes.eq h.eq_of_binding fun _ => trivial]

end Store

theorem Memory.Linked.sameBut {r : ScopeRef} {m n : Memory}
    (h : m.Linked (.whole (· ≠ r) True) hidden ids n) : m.SameBut r n := by
  refine ⟨h.store.sameBut, (h.log trivial).imp fun e e' he => ?_⟩
  rcases he with rfl | ⟨hcall, hidden', ids', -, hoperands, hst⟩
  · exact ⟨rfl, rfl, .refl r _⟩
  · exact ⟨hcall, eq_of_forall₂ (fun o o' ho => ho.eq (hst.exact trivial).2) hoperands, hst.sameBut⟩

theorem Outcome.Linked.eq {o o' : Outcome} (h : o.Linked K True ids o')
    (hids : ∀ a b, ids a b → a = b) : o = o' := by
  cases h with
  | value h => rw [h.eq hids]
  | raised h entries =>
    have he := Value.Linked.eq hids h
    cases he
    rfl
  | fatal h hactive => rw [h trivial, hactive]
  | crashed => rfl

end Bytewright
