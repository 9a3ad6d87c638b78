import Mathlib
import Bytewright.Machine.Equality
import Bytewright.Machine.Failure

/-!
# Linked stores

Identities are paired, and no two pairs have only one side in common, so a comparison by identity
has the same answer on both sides.
-/

namespace Bytewright

open List

/-! ### Values -/

/-- The objects that two stores have in common, under the same references. -/
structure Sharing where
  lists : ListRef → Prop
  dicts : DictRef → Prop
  scopes : ScopeRef → Prop
  iters : IterRef → Prop
  functions : Prop
  exact : Prop
  logs : Prop

/-- Which identities stand for each other. -/
abbrev Pairing := Nat → Nat → Prop

variable {K : Sharing} {ids ids' : Pairing} {v w v' w' : Value} {vs ws vs' ws' : List Value}
  {f : Failure}

/-- The same up to identities, with references to shared cells only. -/
inductive Value.Linked (K : Sharing) (ids : Pairing) : Value → Value → Prop
  | none : Linked K ids .none .none
  | bool (b : Bool) : Linked K ids (.bool b) (.bool b)
  | int (n : Int64) : Linked K ids (.int n) (.int n)
  | float (x : Binary64) : Linked K ids (.float x) (.float x)
  | str (t : String) : Linked K ids (.str t) (.str t)
  | tuple {vs ws : List Value} (h : Forall₂ (Linked K ids) vs ws) :
      Linked K ids (.tuple vs) (.tuple ws)
  | list {r : ListRef} (h : K.lists r) : Linked K ids (.list r) (.list r)
  | dict {r : DictRef} (h : K.dicts r) : Linked K ids (.dict r) (.dict r)
  | space {r : ScopeRef} (h : K.scopes r) : Linked K ids (.space r) (.space r)
  | code {i j : Nat} (h : ids i j) (unit : Code) : Linked K ids (.code i unit) (.code j unit)
  | function {i j : Nat} {unit : Code} {defaults defaults' closure closure' : List Value}
      {r : ScopeRef} (hfunctions : K.functions) (h : ids i j) (hr : K.scopes r)
      (hdefaults : Forall₂ (Linked K ids) defaults defaults')
      (hclosure : Forall₂ (Linked K ids) closure closure') :
      Linked K ids (.function ⟨i, unit, defaults, r, closure⟩)
        (.function ⟨j, unit, defaults', r, closure'⟩)
  | builtin (b : Builtin) : Linked K ids (.builtin b) (.builtin b)
  | exceptionType (kind : String) : Linked K ids (.exceptionType kind) (.exceptionType kind)
  | exception {i j : Nat} {vs ws : List Value} (h : ids i j) (kind : String)
      (hargs : Forall₂ (Linked K ids) vs ws) :
      Linked K ids (.exception ⟨i, kind, vs⟩) (.exception ⟨j, kind, ws⟩)
  | traceback {i j : Nat} (h : ids i j) (entries : List TraceEntry) :
      Linked K ids (.traceback i entries) (.traceback j entries)
  | iterator {r : IterRef} (h : K.iters r) : Linked K ids (.iterator r) (.iterator r)
  | hook {g : Hook} {j : Nat} (h : ids g.id j) : Linked K ids (.hook g) (.hook { g with id := j })
  | method {i j j' : Nat} {g : Hook} (h : ids i j) (h' : ids g.id j') (call : HookCall) :
      Linked K ids (.method i g call) (.method j { g with id := j' } call)

abbrev LinkedAll (K : Sharing) (ids : Pairing) : List Value → List Value → Prop :=
  Forall₂ (Value.Linked K ids)

def LinkedNamed (K : Sharing) (ids : Pairing) (p q : String × Value) : Prop :=
  p.1 = q.1 ∧ p.2.Linked K ids q.2

def LinkedPair (K : Sharing) (ids : Pairing) (p q : Value × Value) : Prop :=
  p.1.Linked K ids q.1 ∧ p.2.Linked K ids q.2

def ExceptionOf.Linked (K : Sharing) (ids : Pairing) (e e' : Exception) : Prop :=
  (Value.exception e).Linked K ids (.exception e')

structure Failure.Linked (K : Sharing) (ids : Pairing) (f g : Failure) : Prop where
  kind_eq : f.kind = g.kind
  args : LinkedAll K ids f.args g.args

mutual

theorem Value.Linked.mono (hle : ids ≤ ids') {v w : Value} :
    v.Linked K ids w → v.Linked K ids' w
  | .none => .none
  | .bool b => .bool b
  | .int n => .int n
  | .float x => .float x
  | .str t => .str t
  | .tuple h => .tuple (LinkedAll.mono hle h)
  | .list h => .list h
  | .dict h => .dict h
  | .space h => .space h
  | .code h unit => .code (hle _ _ h) unit
  | .function hfunctions h hr hdefaults hclosure =>
    .function hfunctions (hle _ _ h) hr (LinkedAll.mono hle hdefaults)
      (LinkedAll.mono hle hclosure)
  | .builtin b => .builtin b
  | .exceptionType kind => .exceptionType kind
  | .exception h kind hargs => .exception (hle _ _ h) kind (LinkedAll.mono hle hargs)
  | .traceback h entries => .traceback (hle _ _ h) entries
  | .iterator h => .iterator h
  | .hook h => .hook (hle _ _ h)
  | .method h h' call => .method (hle _ _ h) (hle _ _ h') call

theorem LinkedAll.mono (hle : ids ≤ ids') {vs ws : List Value} :
    LinkedAll K ids vs ws → LinkedAll K ids' vs ws
  | .nil => .nil
  | .cons h hs => .cons (Value.Linked.mono hle h) (LinkedAll.mono hle hs)

end

theorem LinkedNamed.mono {p q : String × Value} (h : LinkedNamed K ids p q) (hle : ids ≤ ids') :
    LinkedNamed K ids' p q := ⟨h.1, h.2.mono hle⟩

theorem LinkedPair.mono {p q : Value × Value} (h : LinkedPair K ids p q) (hle : ids ≤ ids') :
    LinkedPair K ids' p q := ⟨h.1.mono hle, h.2.mono hle⟩

/-! ### Views of values that correspond -/

namespace Value.Linked

variable (h : v.Linked K ids w)
include h

theorem typeName_eq : v.typeName = w.typeName := by
  cases h <;> rfl

theorem asInt?_eq : v.asInt? = w.asInt? := by
  cases h <;> rfl

theorem asFloat?_eq : v.asFloat? = w.asFloat? := by
  cases h <;> rfl

theorem sameNumber_eq (h' : v'.Linked K ids w') : v.sameNumber v' = w.sameNumber w' := by
  unfold Value.sameNumber
  rw [h.asInt?_eq, h.asFloat?_eq, h'.asInt?_eq, h'.asFloat?_eq]

end Value.Linked

theorem Failure.Linked.of_args (h : f.args = [.str f.message]) :
    f.Linked K ids f := ⟨rfl, by rw [h]; exact .cons (.str _) .nil⟩

theorem linkedAll_str (xs : List Char) :
    LinkedAll K ids (xs.map fun c => .str c.toString) (xs.map fun c => .str c.toString) :=
  forall₂_map_left_iff.2 (forall₂_map_right_iff.2 (forall₂_same.2 fun _ _ => .str _))

/-! ### Name spaces -/

section Bindings

variable {b b' : Bindings}

variable (h : Forall₂ (LinkedNamed K ids) b b')
include h

theorem LinkedNamed.get? (x : String) : Option.Rel (Value.Linked K ids) (b.get? x) (b'.get? x) := by
  induction h with
  | nil => exact .none
  | @cons p q _ _ hpq _ ih =>
    obtain ⟨y, v⟩ := p
    obtain ⟨z, w⟩ := q
    obtain ⟨rfl : y = z, hvw : v.Linked K ids w⟩ := hpq
    simp only [Bindings.get?, lookup_cons] at ih ⊢
    split
    · exact .some hvw
    · exact ih

theorem LinkedNamed.insert (x : String) (hv : v.Linked K ids w) :
    Forall₂ (LinkedNamed K ids) (b.insert x v) (b'.insert x w) := by
  induction h with
  | nil => exact .cons ⟨rfl, hv⟩ .nil
  | @cons p q _ _ hpq hrest ih =>
    obtain ⟨y, _⟩ := p
    obtain ⟨z, _⟩ := q
    obtain rfl : y = z := hpq.1
    simp only [Bindings.insert]
    split_ifs
    · exact .cons ⟨rfl, hv⟩ hrest
    · exact .cons hpq ih

theorem LinkedNamed.erase (x : String) : Forall₂ (LinkedNamed K ids) (b.erase x) (b'.erase x) :=
  rel_filter (fun _ _ hpq => iff_of_eq (congrArg (fun y => (y != x) = true) hpq.1)) h

theorem LinkedNamed.ofList :
    Forall₂ (LinkedNamed K ids) (Bindings.ofList b) (Bindings.ofList b') := by
  refine rel_foldl (fun _ _ hb p q hpq => ?_) .nil h
  rw [hpq.1]
  exact insert hb q.1 hpq.2

end Bindings

/-! ### Pairs of identities -/

def Pairing.add (ids : Pairing) (i j : Nat) : Pairing := fun a b => ids a b ∨ a = i ∧ b = j

structure Pairing.Sound (ids : Pairing) (next next' : Nat) : Prop where
  apart : ∀ {a b a' b' : Nat}, ids a b → ids a' b' → (a = a' ↔ b = b')
  ahead : ∀ {a b : Nat}, ids a b → a < next ∧ b < next' ∨ ∃ k, a = next + k ∧ b = next' + k

theorem Pairing.le_add (ids : Pairing) (i j : Nat) : ids ≤ ids.add i j := fun _ _ => Or.inl

theorem Pairing.add_self (ids : Pairing) (i j : Nat) : ids.add i j i j := .inr ⟨rfl, rfl⟩

theorem Pairing.Sound.next {n n' : Nat} (h : ids.Sound n n') :
    (ids.add n n').Sound (n + 1) (n' + 1) where
  apart := by
    have hnext {a b : Nat} (hab : ids a b) : a = n ↔ b = n' := by
      rcases h.ahead hab with hlt | ⟨k, rfl, rfl⟩ <;> omega
    rintro a b a' b' (hab | ⟨rfl, rfl⟩) (hab' | ⟨rfl, rfl⟩)
    · exact h.apart hab hab'
    · exact hnext hab
    · rw [eq_comm, hnext hab', eq_comm]
    · exact iff_of_true rfl rfl
  ahead := by
    rintro a b (hab | ⟨rfl, rfl⟩)
    · rcases h.ahead hab with hlt | ⟨k, rfl, rfl⟩
      · exact .inl ⟨by omega, by omega⟩
      · cases k with
        | zero => exact .inl ⟨Nat.lt_succ_self _, Nat.lt_succ_self _⟩
        | succ k => exact .inr ⟨k, by omega, by omega⟩
    · exact .inl ⟨Nat.lt_succ_self _, Nat.lt_succ_self _⟩

theorem Pairing.sound_eq (n : Nat) : Pairing.Sound Eq n n where
  apart := by
    rintro a _ a' _ rfl rfl
    exact Iff.rfl
  ahead := by
    rintro a _ rfl
    rcases Nat.lt_or_ge a n with h | h
    · exact .inl ⟨h, h⟩
    · exact .inr ⟨a - n, by omega, by omega⟩

/-! ### Cells -/

structure CellsLinked {α : Type} (shared : Nat → Prop) (E : α → α → Prop)
    (a b : Array (List α)) : Prop where
  size_eq : a.size = b.size
  contents : ∀ {i}, shared i → Forall₂ E (a.getD i []) (b.getD i [])
  beyond : ∀ {i}, a.size ≤ i → shared i

namespace CellsLinked

variable {α : Type} {shared : Nat → Prop} {E E' : α → α → Prop} {a b : Array (List α)}
  {xs ys : List α}

theorem imp (h : CellsLinked shared E a b) (hE : ∀ x y, E x y → E' x y) :
    CellsLinked shared E' a b :=
  ⟨h.size_eq, fun hi => (h.contents hi).imp hE, h.beyond⟩

theorem set (h : CellsLinked shared E a b) (i : Nat) (hxs : Forall₂ E xs ys) :
    CellsLinked shared E (a.setIfInBounds i xs) (b.setIfInBounds i ys) where
  size_eq := by
    rw [Array.size_setIfInBounds, Array.size_setIfInBounds, h.size_eq]
  contents {j} hj := by
    have hcontents := h.contents hj
    have hsize := h.size_eq
    simp only [Array.getD_eq_getD_getElem?, Array.getElem?_setIfInBounds] at hcontents ⊢
    rw [hsize]
    split_ifs
    · exact hxs
    · exact .nil
    · exact hcontents
  beyond hi := by
    rw [Array.size_setIfInBounds] at hi
    exact h.beyond hi

theorem push (h : CellsLinked shared E a b) (hxs : Forall₂ E xs ys) :
    CellsLinked shared E (a.push xs) (b.push ys) where
  size_eq := by
    rw [Array.size_push, Array.size_push, h.size_eq]
  contents {j} hj := by
    have hcontents := h.contents hj
    have hsize := h.size_eq
    simp only [Array.getD_eq_getD_getElem?, Array.getElem?_push] at hcontents ⊢
    rw [hsize]
    split_ifs
    · exact hxs
    · exact hcontents
  beyond hi := by
    rw [Array.size_push] at hi
    exact h.beyond (by omega)

end CellsLinked

/-! ### Stores -/

/-- Shared cells have contents that correspond. -/
structure Store.Linked (K : Sharing) (hidden : ScopeRef → Bindings) (ids : Pairing)
    (s t : Store) : Prop where
  lists : CellsLinked (fun i => K.lists ⟨i⟩) (Value.Linked K ids) s.lists t.lists
  dicts : CellsLinked (fun i => K.dicts ⟨i⟩) (LinkedPair K ids) s.dicts t.dicts
  scopes : CellsLinked (fun i => K.scopes ⟨i⟩) (LinkedNamed K ids) s.scopes t.scopes
  iters : CellsLinked (fun i => K.iters ⟨i⟩) (Value.Linked K ids) s.iters t.iters
  sound : ids.Sound s.nextId t.nextId
  hides : ∀ r, ¬K.scopes r → s.scope r = hidden r
  exact : K.exact → s.nextId = t.nextId ∧ ∀ a b, ids a b → a = b
  taken : ¬K.exact → ∀ a b, ids a b → a < s.nextId ∧ b < t.nextId

def Store.LinkedWith {α β : Type} (K : Sharing) (hidden : ScopeRef → Bindings) (ids : Pairing)
    (R : Pairing → α → β → Prop) (p : α × Store) (q : β × Store) : Prop :=
  ∃ ids', ids ≤ ids' ∧ R ids' p.1 q.1 ∧ Store.Linked K hidden ids' p.2 q.2

/-- Answers that correspond, or failures for the same reason. -/
inductive ExceptLinked {α β : Type} (K : Sharing) (ids : Pairing) (R : α → β → Prop) :
    Except Failure α → Except Failure β → Prop
  | ok {a : α} {b : β} (h : R a b) : ExceptLinked K ids R (.ok a) (.ok b)
  | error {f g : Failure} (h : f.Linked K ids g) : ExceptLinked K ids R (.error f) (.error g)

namespace Store.Linked

variable {hidden : ScopeRef → Bindings} {s t : Store} {α : Type} {i j : Nat}

section

variable (h : Store.Linked K hidden ids s t)
include h

theorem list {r : ListRef} (hr : K.lists r) :
    LinkedAll K ids (s.list r) (t.list r) := h.lists.contents hr

theorem dict {r : DictRef} (hr : K.dicts r) :
    Forall₂ (LinkedPair K ids) (s.dict r) (t.dict r) := h.dicts.contents hr

variable {r : ScopeRef} {pairs pairs' : List (Value × Value)} {b b' : Bindings}

theorem scope (hr : K.scopes r) :
    Forall₂ (LinkedNamed K ids) (s.scope r) (t.scope r) := h.scopes.contents hr

theorem iter {r : IterRef} (hr : K.iters r) :
    LinkedAll K ids (s.iter r) (t.iter r) := h.iters.contents hr

/-! ### Changes of cells -/

theorem setList (r : ListRef) (hvs : LinkedAll K ids vs ws) :
    Store.Linked K hidden ids (s.setList r vs) (t.setList r ws) :=
  { h with lists := h.lists.set r.index hvs }

theorem setDict (r : DictRef) (hpairs : Forall₂ (LinkedPair K ids) pairs pairs') :
    Store.Linked K hidden ids (s.setDict r pairs) (t.setDict r pairs') :=
  { h with dicts := h.dicts.set r.index hpairs }

theorem setIter (r : IterRef) (hvs : LinkedAll K ids vs ws) :
    Store.Linked K hidden ids (s.setIter r vs) (t.setIter r ws) :=
  { h with iters := h.iters.set r.index hvs }

theorem setScope (hr : K.scopes r) (hb : Forall₂ (LinkedNamed K ids) b b') :
    Store.Linked K hidden ids (s.setScope r b) (t.setScope r b') :=
  { h with
    scopes := h.scopes.set r.index hb
    hides := fun r' hr' => by
      have hne : r.index ≠ r'.index := fun heq =>
        hr' ((show r = r' from congrArg ScopeRef.mk heq) ▸ hr)
      rw [← h.hides r' hr']
      simp only [Store.scope, Store.setScope, Array.getD_eq_getD_getElem?,
        Array.getElem?_setIfInBounds_ne hne] }

theorem bindName (hr : K.scopes r) (x : String) (hv : v.Linked K ids w) :
    Store.Linked K hidden ids (s.bindName r x v) (t.bindName r x w) :=
  h.setScope hr (LinkedNamed.insert (h.scope hr) x hv)

/-! ### New values -/

theorem newList (hvs : LinkedAll K ids vs ws) :
    LinkedWith K hidden ids (Value.Linked K) (s.newList vs) (t.newList ws) := by
  refine ⟨ids, le_rfl, ?_, { h with lists := h.lists.push hvs }⟩
  have hnew : (t.newList ws).1 = (s.newList vs).1 := by
    simp only [Store.newList, h.lists.size_eq]
  rw [hnew]
  exact .list (h.lists.beyond le_rfl)

theorem newDict (hpairs : Forall₂ (LinkedPair K ids) pairs pairs') :
    LinkedWith K hidden ids (Value.Linked K) (s.newDict pairs) (t.newDict pairs') := by
  refine ⟨ids, le_rfl, ?_, { h with dicts := h.dicts.push hpairs }⟩
  have hnew : (t.newDict pairs').1 = (s.newDict pairs).1 := by
    simp only [Store.newDict, h.dicts.size_eq]
  rw [hnew]
  exact .dict (h.dicts.beyond le_rfl)

theorem newIter (hvs : LinkedAll K ids vs ws) :
    LinkedWith K hidden ids (Value.Linked K) (s.newIter vs) (t.newIter ws) := by
  refine ⟨ids, le_rfl, ?_, { h with iters := h.iters.push hvs }⟩
  have hnew : (t.newIter ws).1 = (s.newIter vs).1 := by
    simp only [Store.newIter, h.iters.size_eq]
  rw [hnew]
  exact .iterator (h.iters.beyond le_rfl)

theorem newScope (hb : Forall₂ (LinkedNamed K ids) b b') :
    (t.newScope b').1 = (s.newScope b).1 ∧ K.scopes (s.newScope b).1 ∧
      Store.Linked K hidden ids (s.newScope b).2 (t.newScope b').2 := by
  refine ⟨by simp only [Store.newScope, h.scopes.size_eq], h.scopes.beyond le_rfl,
    { h with scopes := h.scopes.push hb, hides := fun r hr => ?_ }⟩
  -- a name space that is hidden is not the one that is made
  have hlt : r.index < s.scopes.size := Nat.lt_of_not_le fun hle => hr (h.scopes.beyond hle)
  rw [← h.hides r hr]
  simp only [Store.scope, Store.newScope, Array.getD_eq_getD_getElem?,
    Array.getElem?_push_lt hlt, Array.getElem?_eq_getElem hlt]

theorem fresh : Store.Linked K hidden (ids.add s.nextId t.nextId) s.fresh.2 t.fresh.2 := by
  have hle := ids.le_add s.nextId t.nextId
  refine ⟨h.lists.imp fun _ _ => .mono hle, h.dicts.imp fun _ _ hp => hp.mono hle,
    h.scopes.imp fun _ _ hp => hp.mono hle, h.iters.imp fun _ _ => .mono hle, h.sound.next,
    h.hides, fun hexact => ?_, fun hexact => ?_⟩
  · obtain ⟨hnext, heq⟩ := h.exact hexact
    refine ⟨congrArg (· + 1) hnext, ?_⟩
    rintro a b (hab | ⟨rfl, rfl⟩)
    · exact heq a b hab
    · exact hnext
  · rintro a b (hab | ⟨rfl, rfl⟩)
    · exact (h.taken hexact a b hab).imp Nat.lt_succ_of_lt Nat.lt_succ_of_lt
    · exact ⟨Nat.lt_succ_self _, Nat.lt_succ_self _⟩

theorem fresh_right (hK : ¬K.exact) : Store.Linked K hidden ids s t.fresh.2 where
  lists := h.lists
  dicts := h.dicts
  scopes := h.scopes
  iters := h.iters
  sound := ⟨h.sound.apart, fun hab => .inl ((h.taken hK _ _ hab).imp_right Nat.lt_succ_of_lt)⟩
  hides := h.hides
  exact hexact := absurd hexact hK
  taken _ a b hab := (h.taken hK a b hab).imp_right Nat.lt_succ_of_lt

theorem linkedWith_fresh {R : Pairing → α → α → Prop} (make make' : Nat → α)
    (hmake : ∀ ids' i j, ids ≤ ids' → ids' i j → R ids' (make i) (make' j)) :
    LinkedWith K hidden ids R (make s.nextId, s.fresh.2) (make' t.nextId, t.fresh.2) :=
  ⟨_, ids.le_add _ _, hmake _ _ _ (ids.le_add _ _) (ids.add_self _ _), h.fresh⟩

theorem newException (kind : String) (hvs : LinkedAll K ids vs ws) :
    LinkedWith K hidden ids (ExceptionOf.Linked K) (s.newException kind vs)
      (t.newException kind ws) :=
  h.linkedWith_fresh (fun i => (⟨i, kind, vs⟩ : Exception)) (fun i => ⟨i, kind, ws⟩)
    fun _ _ _ hle hij => .exception hij kind (hvs.mono hle)

theorem newTraceback (entries : List TraceEntry) :
    LinkedWith K hidden ids (Value.Linked K) (s.newTraceback entries) (t.newTraceback entries) :=
  h.linkedWith_fresh (Value.traceback · entries) (Value.traceback · entries)
    fun _ _ _ _ hij => .traceback hij entries

theorem newCode (unit : Code) :
    LinkedWith K hidden ids (Value.Linked K) (s.newCode unit) (t.newCode unit) :=
  h.linkedWith_fresh (Value.code · unit) (Value.code · unit)
    fun _ _ _ _ hij => .code hij unit

theorem newMethod {g : Hook} (hij : ids g.id j) (call : HookCall) :
    LinkedWith K hidden ids (Value.Linked K) (s.newMethod g call)
      (t.newMethod { g with id := j } call) :=
  h.linkedWith_fresh (Value.method · g call) (Value.method · { g with id := j } call)
    fun _ _ _ hle hkl => .method hkl (hle _ _ hij) call

theorem newFunction (hfunctions : K.functions) (unit : Code) (hvs : LinkedAll K ids vs ws)
    (hr : K.scopes r) (hvs' : LinkedAll K ids vs' ws') :
    LinkedWith K hidden ids (fun ids f g => (Value.function f).Linked K ids (.function g))
      (s.newFunction unit vs r vs') (t.newFunction unit ws r ws') :=
  h.linkedWith_fresh (fun i => (⟨i, unit, vs, r, vs'⟩ : Function)) (fun i => ⟨i, unit, ws, r, ws'⟩)
    fun _ _ _ hle hij => .function hfunctions hij hr (hvs.mono hle) (hvs'.mono hle)

theorem failed {g : Failure} (hfg : f.Linked K ids g) :
    LinkedWith K hidden ids (ExceptionOf.Linked K) (s.failed f) (t.failed g) := by
  unfold Store.failed
  rw [hfg.kind_eq]
  exact h.newException g.kind hfg.args

end

mutual

theorem ofConst {ids : Pairing} {s t : Store} (h : Store.Linked K hidden ids s t) : ∀ c : Const,
    LinkedWith K hidden ids (Value.Linked K) (s.ofConst c) (t.ofConst c)
  | .none => ⟨ids, le_rfl, .none, h⟩
  | .bool b => ⟨ids, le_rfl, .bool b, h⟩
  | .int n => ⟨ids, le_rfl, .int n, h⟩
  | .float x => ⟨ids, le_rfl, .float x, h⟩
  | .str x => ⟨ids, le_rfl, .str x, h⟩
  | .tuple items => by
    obtain ⟨ids', hle, hitems, h'⟩ := ofConsts h items
    simp only [Store.ofConst]
    exact ⟨ids', hle, .tuple hitems, h'⟩
  | .code unit => h.newCode unit

theorem ofConsts {ids : Pairing} {s t : Store} (h : Store.Linked K hidden ids s t) :
    ∀ cs : List Const,
    LinkedWith K hidden ids (LinkedAll K) (s.ofConsts cs) (t.ofConsts cs)
  | [] => ⟨ids, le_rfl, .nil, h⟩
  | c :: cs => by
    obtain ⟨ids', hle, hv, h'⟩ := ofConst h c
    obtain ⟨ids'', hle', hvs, h''⟩ := ofConsts h' cs
    simp only [Store.ofConsts]
    exact ⟨ids'', hle.trans hle', .cons (hv.mono hle') hvs, h''⟩

end

/-! ### Views -/

theorem truthy_eq (h : Store.Linked K hidden ids s t) (hv : v.Linked K ids w) :
    s.truthy v = t.truthy w := by
  have hempty {α : Type} {E : α → α → Prop} {xs ys : List α} (hxs : Forall₂ E xs ys) :
      xs.isEmpty = ys.isEmpty := by
    cases hxs <;> rfl
  cases hv with
  | tuple hvs => exact congrArg (!·) (hempty hvs)
  | list hr => exact congrArg (!·) (hempty (h.list hr))
  | dict hr => exact congrArg (!·) (hempty (h.dict hr))
  | _ => rfl

theorem items?_rel (h : Store.Linked K hidden ids s t) (hv : v.Linked K ids w) :
    Option.Rel (LinkedAll K ids) (s.items? v) (t.items? w) := by
  cases hv with
  | tuple hvs => exact .some hvs
  | list hr => exact .some (h.list hr)
  | dict hr => exact .some (rel_map (fun _ _ hp => hp.1) (h.dict hr))
  | str x => exact .some (linkedAll_str _)
  | _ => exact .none

/-! ### Equality -/

section Equality

variable {inner inner' : Value → Value → Bool}

def SameAnswers (K : Sharing) (ids : Pairing) (inner inner' : Value → Value → Bool) : Prop :=
  ∀ v w v' w', v.Linked K ids w → v'.Linked K ids w' → inner v v' = inner' w w'

theorem equalLists_eq (hinner : SameAnswers K ids inner inner') (hvs : LinkedAll K ids vs ws)
    (hvs' : LinkedAll K ids vs' ws') : equalLists inner vs vs' = equalLists inner' ws ws' := by
  induction hvs generalizing vs' ws' with
  | nil => cases hvs' <;> rfl
  | cons hv _ ih =>
    cases hvs' with
    | nil => rfl
    | cons hv' hvs' => simp only [equalLists, hinner _ _ _ _ hv hv', ih hvs']

theorem any_eq {E : α → α → Prop} {p q : α → Bool} {xs ys : List α} (h : Forall₂ E xs ys)
    (hpq : ∀ x y, E x y → p x = q y) : xs.any p = ys.any q := by
  induction h with
  | nil => rfl
  | cons hxy _ ih => rw [any_cons, any_cons, hpq _ _ hxy, ih]

theorem all_eq {E : α → α → Prop} {p q : α → Bool} {xs ys : List α} (h : Forall₂ E xs ys)
    (hpq : ∀ x y, E x y → p x = q y) : xs.all p = ys.all q := by
  induction h with
  | nil => rfl
  | cons hxy _ ih => rw [all_cons, all_cons, hpq _ _ hxy, ih]

theorem any_pair_eq (hinner : SameAnswers K ids inner inner') {p q : Value × Value}
    (hp : LinkedPair K ids p q) {bs bs' : List (Value × Value)}
    (h : Forall₂ (LinkedPair K ids) bs bs') :
    (bs.any fun b => inner p.1 b.1 && inner p.2 b.2) =
      bs'.any fun b => inner' q.1 b.1 && inner' q.2 b.2 :=
  any_eq h fun b b' hb => by rw [hinner _ _ _ _ hp.1 hb.1, hinner _ _ _ _ hp.2 hb.2]

theorem equalMaps_eq (hinner : SameAnswers K ids inner inner')
    {as bs as' bs' : List (Value × Value)}
    (h : Forall₂ (LinkedPair K ids) as as') (h' : Forall₂ (LinkedPair K ids) bs bs') :
    equalMaps inner as bs = equalMaps inner' as' bs' := by
  unfold equalMaps
  rw [h.length_eq, h'.length_eq]
  congr 1
  exact all_eq h fun p q hpq => any_pair_eq hinner hpq h'

theorem beq_eq (h : Store.Linked K hidden ids s t) {i' j' : Nat} (hij : ids i j)
    (hij' : ids i' j') : (i == i') = (j == j') := by
  rw [Bool.eq_iff_iff, beq_iff_eq, beq_iff_eq]
  exact h.sound.apart hij hij'

mutual

theorem equalsBy_eq (h : Store.Linked K hidden ids s t) (hinner : SameAnswers K ids inner inner')
    {v w v' w' : Value} : v.Linked K ids w → v'.Linked K ids w' →
      s.equalsBy inner v v' = t.equalsBy inner' w w'
  | hv, hv' => by
    have hnumber := hv.sameNumber_eq hv'
    cases hv with
    | bool | int | float => exact hnumber
    | tuple hvs =>
      cases hv' with
      | tuple hvs' => exact equalAllBy_eq h hinner hvs hvs'
      | _ => rfl
    | list hr =>
      cases hv' with
      | list hr' => simp only [Store.equalsBy, equalLists_eq hinner (h.list hr) (h.list hr')]
      | _ => rfl
    | dict hr =>
      cases hv' with
      | dict hr' => exact equalMaps_eq hinner (h.dict hr) (h.dict hr')
      | _ => rfl
    | code hij =>
      cases hv' with
      | code hij' => simp only [Store.equalsBy, h.beq_eq hij hij']
      | _ => rfl
    | function _ hij =>
      cases hv' with
      | function _ hij' => exact h.beq_eq hij hij'
      | _ => rfl
    | exception hij =>
      cases hv' with
      | exception hij' => exact h.beq_eq hij hij'
      | _ => rfl
    | traceback hij =>
      cases hv' with
      | traceback hij' => exact h.beq_eq hij hij'
      | _ => rfl
    | hook hij =>
      cases hv' with
      | hook hij' => exact h.beq_eq hij hij'
      | _ => rfl
    | method hij =>
      cases hv' with
      | method hij' => exact h.beq_eq hij hij'
      | _ => rfl
    | _ => cases hv' <;> rfl

theorem equalAllBy_eq (h : Store.Linked K hidden ids s t) (hinner : SameAnswers K ids inner inner')
    {vs ws vs' ws' : List Value} : LinkedAll K ids vs ws → LinkedAll K ids vs' ws' →
      s.equalAllBy inner vs vs' = t.equalAllBy inner' ws ws'
  | .nil, hvs' => by cases hvs' <;> rfl
  | .cons hv hvs, hvs' => by
    cases hvs' with
    | nil => rfl
    | cons hv' hvs' =>
      simp only [Store.equalAllBy, equalsBy_eq h hinner hv hv', equalAllBy_eq h hinner hvs hvs']

end

theorem sameAnswers_equalsUpTo (h : Store.Linked K hidden ids s t) (n : Nat) :
    SameAnswers K ids (s.equalsUpTo n) (t.equalsUpTo n) := by
  induction n with
  | zero => exact fun _ _ _ _ hv hv' => h.equalsBy_eq (fun _ _ _ _ _ _ => rfl) hv hv'
  | succ n ih => exact fun _ _ _ _ hv hv' => h.equalsBy_eq ih hv hv'

theorem sameAnswers_equals (h : Store.Linked K hidden ids s t) :
    SameAnswers K ids s.equals t.equals := by
  intro v w v' w' hv hv'
  unfold Store.equals Store.pairsOfCells
  rw [h.lists.size_eq, h.dicts.size_eq]
  exact h.sameAnswers_equalsUpTo _ v w v' w' hv hv'

theorem comparedItems_linked (hinner : SameAnswers K ids inner inner') (hvs : LinkedAll K ids vs ws)
    (hvs' : LinkedAll K ids vs' ws') :
    Forall₂ (LinkedPair K ids) (comparedItems inner vs vs') (comparedItems inner' ws ws') := by
  induction hvs generalizing vs' ws' with
  | nil => cases hvs' <;> exact .nil
  | cons hv _ ih =>
    cases hvs' with
    | nil => exact .nil
    | cons hv' hvs' =>
      rw [comparedItems, comparedItems, hinner _ _ _ _ hv hv']
      refine .cons ⟨hv, hv'⟩ ?_
      split_ifs
      · exact ih hvs'
      · exact .nil

theorem comparedPair_linked (hinner : SameAnswers K ids inner inner') {p q : Value × Value}
    (hp : LinkedPair K ids p q) {bs bs' : List (Value × Value)}
    (h : Forall₂ (LinkedPair K ids) bs bs') :
    Forall₂ (LinkedPair K ids) (comparedPair inner p bs) (comparedPair inner' q bs') := by
  induction h with
  | nil => exact .nil
  | cons hb _ ih =>
    rw [comparedPair, comparedPair, hinner _ _ _ _ hp.1 hb.1, hinner _ _ _ _ hp.2 hb.2]
    split_ifs
    · exact .cons ⟨hp.1, hb.1⟩ (.cons ⟨hp.2, hb.2⟩ .nil)
    · exact .cons ⟨hp.1, hb.1⟩ (.cons ⟨hp.2, hb.2⟩ ih)
    · exact .cons ⟨hp.1, hb.1⟩ ih

theorem comparedMaps_linked (hinner : SameAnswers K ids inner inner')
    {as bs as' bs' : List (Value × Value)} (h : Forall₂ (LinkedPair K ids) as as')
    (h' : Forall₂ (LinkedPair K ids) bs bs') :
    Forall₂ (LinkedPair K ids) (comparedMaps inner bs as) (comparedMaps inner' bs' as') := by
  induction h with
  | nil => exact .nil
  | cons hp _ ih =>
    rw [comparedMaps, comparedMaps, any_pair_eq hinner hp h']
    refine rel_append (comparedPair_linked hinner hp h') ?_
    split_ifs
    · exact ih
    · exact .nil

theorem compared_linked (h : Store.Linked K hidden ids s t) {v w v' w' : Value}
    (hv : v.Linked K ids w) (hv' : v'.Linked K ids w') :
    Forall₂ (LinkedPair K ids) (s.compared v v') (t.compared w w') := by
  unfold Store.compared
  cases hv with
  | list hr =>
    cases hv' with
    | list hr' =>
      dsimp only
      rw [(h.list hr).length_eq, (h.list hr').length_eq]
      split_ifs
      · exact .nil
      · exact comparedItems_linked h.sameAnswers_equals (h.list hr) (h.list hr')
    | _ => exact .nil
  | dict hr =>
    cases hv' with
    | dict hr' =>
      dsimp only
      rw [(h.dict hr).length_eq, (h.dict hr').length_eq]
      split_ifs
      · exact .nil
      · exact comparedMaps_linked h.sameAnswers_equals (h.dict hr) (h.dict hr')
    | _ => exact .nil
  | _ => exact .nil

mutual

theorem settlesBy_eq (h : Store.Linked K hidden ids s t) (held : Option DictRef)
    (hinner : SameAnswers K ids inner inner') {v w v' w' : Value} : v.Linked K ids w →
      v'.Linked K ids w' → s.settlesBy held inner v v' = t.settlesBy held inner' w w'
  | hv, hv' => by
    have hall := all_eq (h.compared_linked hv hv') fun p q hp => hinner _ _ _ _ hp.1 hp.2
    cases hv with
    | tuple hvs =>
      cases hv' with
      | tuple hvs' =>
        simp only [Store.settlesBy, hvs.length_eq, hvs'.length_eq,
          settlesAllBy_eq h held hinner hvs hvs']
      | _ => rfl
    | list => simp only [Store.settlesBy, Store.meets, hall]
    | dict =>
      simp only [Store.settlesBy, hall]
      cases hv' <;> rfl
    | _ => rfl

theorem settlesAllBy_eq (h : Store.Linked K hidden ids s t) (held : Option DictRef)
    (hinner : SameAnswers K ids inner inner') {vs ws vs' ws' : List Value} :
    LinkedAll K ids vs ws → LinkedAll K ids vs' ws' →
      s.settlesAllBy held inner vs vs' = t.settlesAllBy held inner' ws ws'
  | .nil, hvs' => by cases hvs' <;> rfl
  | .cons hv hvs, hvs' => by
    cases hvs' with
    | nil => rfl
    | cons hv' hvs' =>
      simp only [Store.settlesAllBy, settlesBy_eq h held hinner hv hv',
        h.sameAnswers_equals _ _ _ _ hv hv', settlesAllBy_eq h held hinner hvs hvs']

end

theorem sameAnswers_settles (h : Store.Linked K hidden ids s t) (held : Option DictRef) :
    SameAnswers K ids (s.settles held) (t.settles held) := by
  have hdepth (n : Nat) : SameAnswers K ids (s.settlesUpTo held n) (t.settlesUpTo held n) := by
    induction n with
    | zero => exact fun _ _ _ _ => h.settlesBy_eq held fun _ _ _ _ _ _ => rfl
    | succ n ih => exact fun _ _ _ _ => h.settlesBy_eq held ih
  intro v w v' w' hv hv'
  unfold Store.settles Store.pairsOfCells
  rw [h.lists.size_eq, h.dicts.size_eq]
  exact hdepth _ v w v' w' hv hv'

end Equality

end Store.Linked

end Bytewright
