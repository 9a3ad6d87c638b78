import Bytewright.Proofs.Link.Closed
import Bytewright.Proofs.Machine.Agreement

/-!
# Runs with resolved names

A name that is loaded as a fast local has to be bound by then, and a name that is loaded as a global
one never to be bound in the name space.
-/

namespace Bytewright

open List

/-! ### Name spaces -/

namespace Bindings

theorem get?_cons (p : String × Value) (b : Bindings) (y : String) :
    get? (p :: b) y = if y = p.1 then some p.2 else b.get? y := by
  obtain ⟨x, v⟩ := p
  rw [get?, lookup_cons]
  by_cases hy : y = x
  · simp [hy]
  · simp [beq_false_of_ne hy, hy, get?]

theorem get?_insert (b : Bindings) (x y : String) (v : Value) :
    (b.insert x v).get? y = if y = x then some v else b.get? y := by
  induction b with
  | nil => exact get?_cons _ _ _
  | cons p b ih =>
    obtain ⟨z, w⟩ := p
    rw [insert]
    by_cases hz : z = x
    · subst hz
      rw [if_pos rfl, get?_cons, get?_cons]
      by_cases hy : y = z
      · rw [if_pos hy, if_pos hy]
      · rw [if_neg hy, if_neg hy, if_neg hy]
    · rw [if_neg hz, get?_cons, get?_cons, ih]
      by_cases hy : y = z
      · rw [if_pos hy, if_pos hy, if_neg (hy ▸ hz)]
      · rw [if_neg hy, if_neg hy]

theorem map_get?_insert {xs : List String} (hxs : xs.Nodup) {i : Nat} {x : String}
    (hi : xs[i]? = some x) (b : Bindings) (v : Value) :
    xs.map (b.insert x v).get? = (xs.map b.get?).set i (some v) := by
  obtain ⟨hlt, rfl⟩ := List.getElem?_eq_some_iff.1 hi
  refine ext_getElem (by simp) fun j hj hj' => ?_
  simp only [getElem_map, getElem_set, get?_insert]
  have hjx : j < xs.length := by simpa using hj
  by_cases hij : i = j
  · subst hij
    simp
  · have hne : xs[j] ≠ xs[i] := fun heq => hij (hxs.getElem_inj_iff.1 heq).symm
    simp [hij, hne]

end Bindings

theorem Store.Linked.bindHidden {r : ScopeRef} {b : Bindings} {ids : Pairing} {s t : Store}
    (h : Store.Linked (.whole (· ≠ r) True) (fun _ => b) ids s t) (x : String) (v : Value) :
    Store.Linked (.whole (· ≠ r) True) (fun _ => b.insert x v) ids (s.bindName r x v) t := by
  have hlt : r.index < s.scopes.size := by
    by_contra hle
    exact h.scopes.beyond (Nat.le_of_not_lt hle) rfl
  have hb : s.scope r = b := h.hides r fun hr => hr rfl
  refine { h with scopes := ⟨?_, fun {i} hi => ?_, fun hi => ?_⟩, hides := fun r' hr' => ?_ }
  · simp only [Store.bindName, Store.setScope, Array.size_setIfInBounds, h.scopes.size_eq]
  · have hne : r.index ≠ i := fun heq => hi (by rw [← heq])
    have hcontents := h.scopes.contents hi
    simpa only [Store.bindName, Store.setScope, Array.getD_eq_getD_getElem?,
      Array.getElem?_setIfInBounds_ne hne] using hcontents
  · simp only [Store.bindName, Store.setScope, Array.size_setIfInBounds] at hi
    exact h.scopes.beyond hi
  · rw [not_not.1 hr', Store.bindName, hb]
    simp [Store.scope, Store.setScope, hlt]

/-! ### Instructions on names -/

section Evaluate

open Exec

variable {f : Frame} {m : Memory} {a : UInt32} {x : String} {v : Value} {rest : List Value}
  {index : Nat}

theorem execute_storeFast (hx : f.code.varNames[a.toNat]? = some x) (hs : f.stack = v :: rest) :
    execute ⟨.name .storeFast, a⟩ index ⟨f, m⟩ =
      .ok .next ⟨{ f with stack := rest, fast := f.fast.set a.toNat (some v) }, m⟩ := by
  simp only [execute, onName, bind, EStateM.bind, frame, NameOp.pool, Outline.pool, hx, pop, hs]
  rfl

theorem execute_loadFast (hx : f.code.varNames[a.toNat]? = some x)
    (hv : f.fast[a.toNat]? = some (some v)) :
    execute ⟨.name .loadFast, a⟩ index ⟨f, m⟩ = .ok .next ⟨f.push v, m⟩ := by
  simp only [execute, onName, bind, EStateM.bind, frame, NameOp.pool, Outline.pool, hx, hv]
  rfl

def loadGlobal (x : String) : Exec Signal := do
  let f ← frame
  let v ← orFail (lookupGlobal (← store) f.globals x)
  push v
  return .next

theorem simulates_loadGlobal {K : Sharing} {A : Alignment K} {hidden : ScopeRef → Bindings}
    {ids : Pairing} (x : String) :
    Simulates A hidden ids (Signal.Linked K) (loadGlobal x) (loadGlobal x) := by
  refine simulates_frame fun f g hfg => simulates_store fun s t hst => ?_
  rw [← hfg.globals_eq]
  exact simulates_orFail (lookupGlobal_linked hst hfg.globals_shared x) fun _ _ hv =>
    simulates_answer hv

variable (hx : f.code.names[a.toNat]? = some x)
include hx

theorem execute_storeName (hs : f.stack = v :: rest) :
    execute ⟨.name .storeName, a⟩ index ⟨f, m⟩ =
      .ok .next ⟨{ f with stack := rest }, { m with store := m.store.bindName f.names x v }⟩ := by
  simp only [execute, onName, bind, EStateM.bind, frame, NameOp.pool, Outline.pool, hx, pop, hs]
  rfl

theorem execute_loadName (hv : (m.store.scope f.names).get? x = some v) :
    execute ⟨.name .loadName, a⟩ index ⟨f, m⟩ = .ok .next ⟨f.push v, m⟩ := by
  simp only [execute, onName, bind, EStateM.bind, frame, NameOp.pool, Outline.pool, hx, store, hv]
  rfl

theorem execute_loadName_of_none (hv : (m.store.scope f.names).get? x = none) :
    execute ⟨.name .loadName, a⟩ index ⟨f, m⟩ = loadGlobal x ⟨f, m⟩ := by
  simp only [execute, onName, loadGlobal, bind, EStateM.bind, frame, NameOp.pool, Outline.pool, hx,
    store, hv]
  cases orFail (lookupGlobal m.store f.globals x) ⟨f, m⟩ <;> rfl

theorem execute_loadGlobal : execute ⟨.name .loadGlobal, a⟩ index ⟨f, m⟩ = loadGlobal x ⟨f, m⟩ := by
  simp only [execute, onName, loadGlobal, bind, EStateM.bind, frame, NameOp.pool, Outline.pool, hx,
    store]
  cases orFail (lookupGlobal m.store f.globals x) ⟨f, m⟩ <;> rfl

end Evaluate

/-! ### Two units -/

/-- The instructions do the same, the first by name and the second with fast locals. -/
inductive Counterparts (c d : Code) (settled owned : String → Prop) :
    Instruction → Instruction → Prop
  | store {x : String} {a a' : UInt32} (hx : c.names[a.toNat]? = some x)
      (hx' : d.varNames[a'.toNat]? = some x) (howned : owned x) :
      Counterparts c d settled owned ⟨.name .storeName, a⟩ ⟨.name .storeFast, a'⟩
  | load {x : String} {a a' : UInt32} (hx : c.names[a.toNat]? = some x)
      (hx' : d.varNames[a'.toNat]? = some x) (hsettled : settled x) :
      Counterparts c d settled owned ⟨.name .loadName, a⟩ ⟨.name .loadFast, a'⟩
  | global {x : String} {a a' : UInt32} (hx : c.names[a.toNat]? = some x)
      (hx' : d.names[a'.toNat]? = some x) (howned : ¬owned x) :
      Counterparts c d settled owned ⟨.name .loadName, a⟩ ⟨.name .loadGlobal, a'⟩
  | attr {op : NameOp} {x : String} {a a' : UInt32} (hop : op = .loadAttr ∨ op = .storeAttr)
      (hx : c.names[a.toNat]? = some x) (hx' : d.names[a'.toNat]? = some x) :
      Counterparts c d settled owned ⟨.name op, a⟩ ⟨.name op, a'⟩
  | same {i : Instruction} (hname : ∀ op, i.opcode ≠ .name op)
      (hblock : i.opcode.movesBlock = false) : Counterparts c d settled owned i i

/-- The units differ in how names are found only. -/
structure Resolution (c d : Code) (settled : Nat → String → Prop) (owned : String → Prop) :
    Prop where
  entry_eq : ∀ index, (⟨c.fileName, c.name, c.lineFor index⟩ : TraceEntry) =
    ⟨d.fileName, d.name, d.lineFor index⟩
  consts_eq : c.consts = d.consts
  length_eq : c.code.length = d.code.length
  nodup : d.varNames.Nodup
  twins : ∀ {ip i i'}, c.code[ip]? = some i → d.code[ip]? = some i' →
    Counterparts c d (settled ip) owned i i'
  next : ∀ {ip i x}, c.code[ip]? = some i → settled (ip + 1) x →
    settled ip x ∨ ∃ a, i = ⟨.name .storeName, a⟩ ∧ c.names[a.toNat]? = some x
  jump : ∀ {ip i target x}, c.code[ip]? = some i → i.target ip = some target →
    settled target x → settled ip x

namespace Resolution

variable {c d : Code} {settled : Nat → String → Prop} {owned : String → Prop} {r : ScopeRef}
  {b b' : Bindings} {ids : Pairing} {f g : Frame}

structure Base (c d : Code) (r : ScopeRef) (b : Bindings) (ids : Pairing) (f g : Frame) : Prop where
  code_eq : f.code = c
  code_eq' : g.code = d
  ip_eq : f.ip = g.ip
  names_eq : f.names = r
  fast : LinkedSlots (.whole (· ≠ r) True) ids (d.varNames.map b.get?) g.fast

def alignment (h : Resolution c d settled owned) (r : ScopeRef) (b : Bindings) :
    Alignment (.whole (· ≠ r) True) where
  base := Base c d r b
  target := Eq
  exact := True
  mono hle hfg := { hfg with fast := hfg.fast.mono hle }
  jump hij hfg := { hfg with ip_eq := hij }
  reach hij hfg := by rw [hij, hfg.code_eq, hfg.code_eq', h.length_eq]
  ip_eq _ hfg := hfg.ip_eq
  entry hfg := by
    rw [Frame.entry, Frame.entry, hfg.code_eq, hfg.code_eq', hfg.ip_eq]
    exact h.entry_eq _

section

variable (h : Resolution c d settled owned)
include h

theorem matches_same {i : Instruction} (index : Nat)
    (hname : ∀ op, i.opcode ≠ .name op) : (h.alignment r b).Matches i i index index := by
  refine ⟨rfl, fun _ => rfl, ?_⟩
  obtain ⟨op, arg⟩ := i
  cases op with
  | loadConst =>
    intro ids f g hfg
    rw [hfg.code_eq, hfg.code_eq', h.consts_eq]
    exact ⟨rfl, fun _ _ => rfl⟩
  | name op => exact (hname op rfl).elim
  | jump op => exact optionRel_refl _
  | count op =>
    cases op with
    | makeFunction => exact ⟨rfl, trivial⟩
    | _ => rfl
  | _ => rfl

theorem matches_attr {op : NameOp} {x : String} {a a' : UInt32}
    (index : Nat) (hop : op = .loadAttr ∨ op = .storeAttr) (hx : c.names[a.toNat]? = some x)
    (hx' : d.names[a'.toNat]? = some x) :
    (h.alignment r b).Matches ⟨.name op, a⟩ ⟨.name op, a'⟩ index index := by
  refine ⟨rfl, fun _ => rfl, fun {ids f g} hfg => ?_, fun {ids f g} hfg => ?_⟩
  · have hpool : op.pool = .names := by rcases hop with rfl | rfl <;> rfl
    rw [hpool, hfg.code_eq, hfg.code_eq']
    refine ⟨hx.trans hx'.symm, fun _ hnone => ?_⟩
    rw [show (c.pool .names)[a.toNat]? = some x from hx] at hnone
    cases hnone
  · rcases hop with rfl | rfl <;> trivial

theorem execute_linked {m n : Memory} {i i' : Instruction} (hfg : f.Aligned (h.alignment r b) ids g)
    (hm : m.Linked (.whole (· ≠ r) True) (fun _ => b) ids n)
    (hi : c.code[f.ip]? = some i) (hi' : d.code[g.ip]? = some i')
    (howned : ∀ x, (b.get? x).isSome → owned x) (hsettled : ∀ x, settled f.ip x → (b.get? x).isSome)
    (hpops : (i.opcode.effect i.arg).1 ≤ f.stack.length) : ∃ b' : Bindings,
      ResultLinked ids (Stop.Linked (.whole (· ≠ r) True) True)
        (Moment.Linked (h.alignment r b') fun _ => b') (Signal.Linked (.whole (· ≠ r) True))
        (execute i f.ip ⟨f.ahead, m⟩) (execute i' g.ip ⟨g.ahead, n⟩) ∧
      (∀ x, (b'.get? x).isSome → owned x) ∧ (∀ x, (b.get? x).isSome → (b'.get? x).isSome) ∧
      ∀ a x, i = ⟨.name .storeName, a⟩ → c.names[a.toNat]? = some x → (b'.get? x).isSome := by
  have hbase : Base c d r b ids f.bare g.bare := hfg.base
  have hcode : f.code = c := hbase.code_eq
  have hcode' : g.code = d := hbase.code_eq'
  have hip : f.ip = g.ip := hbase.ip_eq
  have hnames : f.names = r := hbase.names_eq
  have hfast : LinkedSlots (.whole (· ≠ r) True) ids (d.varNames.map b.get?) g.fast := hbase.fast
  have hscope : m.store.scope f.names = b := by
    rw [hnames]
    exact hm.store.hides r fun hr => hr rfl
  have hmoment : Moment.Linked (h.alignment r b) (fun _ => b) ids ⟨f.ahead, m⟩ ⟨g.ahead, n⟩ := by
    refine ⟨{ hfg with base := ?_ }, hm⟩
    exact { hbase with ip_eq := congrArg (· + 1) hip }
  rw [← hip] at hi'
  cases h.twins hi hi' with
  | @store x a a' hx hx' hx'' =>
    obtain ⟨v, rest, hs⟩ : ∃ v rest, f.stack = v :: rest := exists_cons_of_length_pos hpops
    have hstack := hfg.stack
    rw [hs] at hstack
    obtain ⟨w, rest', hv, hrest, hs'⟩ := forall₂_cons_left_iff.1 hstack
    refine ⟨b.insert x v, ?_, fun y hy => ?_, fun y hy => ?_, fun a'' y ha hy => ?_⟩
    · rw [execute_storeName (f := f.ahead) (hcode ▸ hx) hs,
        execute_storeFast (f := g.ahead) (hcode' ▸ hx') hs']
      refine .ok le_rfl .next ⟨?_, ⟨hnames ▸ hm.store.bindHidden x v, hm.log⟩⟩
      have hfast' : LinkedSlots (.whole (· ≠ r) True) ids (d.varNames.map (b.insert x v).get?)
          (g.fast.set a'.toNat (some w)) := by
        rw [Bindings.map_get?_insert h.nodup hx']
        exact set_rel hfast _ (.some hv)
      exact
        { hfg with
          base := { hbase with ip_eq := congrArg (· + 1) hip, fast := hfast' }
          stack := hrest
          blocks := hfg.blocks.imp fun _ _ hb => ⟨hb.kind_eq, hb.level_eq, hb.handler⟩ }
    · rw [Bindings.get?_insert] at hy
      split_ifs at hy with hyx
      · exact hyx ▸ hx''
      · exact howned y hy
    · rw [Bindings.get?_insert]
      split_ifs
      · rfl
      · exact hy
    · cases ha
      rw [hx] at hy
      cases hy
      rw [Bindings.get?_insert, if_pos rfl]
      rfl
  | @load x a a' hx hx' hx'' =>
    refine ⟨b, ?_, howned, fun _ hy => hy, fun _ _ ha => by cases ha⟩
    obtain ⟨v, hv⟩ := Option.isSome_iff_exists.1 (hsettled x hx'')
    have hslot : (d.varNames.map b.get?)[a'.toNat]? = some (some v) := by
      rw [getElem?_map, hx', Option.map_some, hv]
    obtain ⟨w, hw, hvw⟩ : ∃ w, g.fast[a'.toNat]? = some (some w) ∧
        v.Linked (.whole (· ≠ r) True) ids w := by
      rcases optionRel_cases (getElem?_rel hfast a'.toNat) with ⟨hnone, -⟩ | ⟨p, q, hp, hq, hpq⟩
      · rw [hslot] at hnone
        cases hnone
      · rw [hslot] at hp
        cases hp
        cases hpq with
        | some hvw => exact ⟨_, hq, hvw⟩
    rw [execute_loadName (f := f.ahead) (hcode ▸ hx) (hscope ▸ hv),
      execute_loadFast (f := g.ahead) (hcode' ▸ hx') hw]
    exact .ok le_rfl .next ⟨hmoment.frame.withStack (.cons hvw hfg.stack), hm⟩
  | @global x a a' hx hx' hx'' =>
    refine ⟨b, ?_, howned, fun _ hy => hy, fun _ _ ha => by cases ha⟩
    have hnone : (m.store.scope f.names).get? x = none := by
      rw [hscope]
      by_contra hsome
      exact hx'' (howned x (Option.isSome_iff_ne_none.2 hsome))
    rw [execute_loadName_of_none (f := f.ahead) (hcode ▸ hx) hnone,
      execute_loadGlobal (f := g.ahead) (hcode' ▸ hx')]
    exact simulates_loadGlobal x _ _ hmoment
  | @attr op x a a' hop hx hx' =>
    refine ⟨b, ?_, howned, fun _ hy => hy, fun _ _ ha => ?_⟩
    · rw [hip]
      exact Exec.simulates_execute (h.matches_attr g.ip hop hx hx') _ _ hmoment
    · rcases hop with rfl | rfl <;> cases ha
  | same hname hblock =>
    refine ⟨b, ?_, howned, fun _ hy => hy, fun _ _ ha => ?_⟩
    · rw [hip]
      exact Exec.simulates_execute (h.matches_same g.ip hname) _ _ hmoment
    · exact (hname _ (congrArg Instruction.opcode ha)).elim

end

/-! ### Runs -/

section Runs

open Depth (Record Recorded Survey)

/-- The name space binds every name that is settled at the place of the frame. -/
structure Ready (c : Code) (settled : Nat → String → Prop) (seen : Record) (r : ScopeRef)
    (b : Bindings) (f : Frame) : Prop where
  code_eq : f.code = c
  names_eq : f.names = r
  fits : f.Matches c.code seen
  blocks_eq : f.blocks = []
  bound : ∀ x, settled f.ip x → (b.get? x).isSome

structure Bottom (c : Code) (settled : Nat → String → Prop) (seen : Record) (r : ScopeRef)
    (b : Bindings) (R : Run) : Prop where
  frame : R.callers = [] → Ready c settled seen r b R.frame
  caller : ∀ z, R.callers.getLast? = some z → ∀ v, Ready c settled seen r b (z.push v)

variable {seen : Record} {deepest : Int} {i : Instruction} {mem : Memory} {m : Moment}
  {R R' R₁ : Run}

theorem Ready.execute (h : Resolution c d settled owned) (hs : Survey c.code seen deepest [])
    (hf : Ready c settled seen r b f) (hi : c.code[f.ip]? = some i)
    (hblock : i.opcode.movesBlock = false) (hkeep : ∀ x, (b.get? x).isSome → (b'.get? x).isSome)
    (hstore : ∀ a x, i = ⟨.name .storeName, a⟩ → c.names[a.toNat]? = some x → (b'.get? x).isSome)
    {signal : Signal} (hm : execute i f.ip ⟨f.ahead, mem⟩ = .ok signal m)
    (hnames : m.frame.names = r) :
    (signal = .next → Ready c settled seen r b' m.frame) ∧
      ∀ callee, signal = .call callee → ∀ v, Ready c settled seen r b' (m.frame.push v) := by
  obtain ⟨blocks, hv, hends⟩ := hf.fits.visited hs hi
  have hanswers := (Exec.ends_iff.1 (hends mem)).1 _ _ hm
  have hresumes := hf.fits.resumes hs hi hm
  have hnext (x : String) (hx : settled (f.ip + 1) x) : (b'.get? x).isSome := by
    rcases h.next hi hx with hx | ⟨a, ha, hx⟩
    · exact hkeep x (hf.bound x hx)
    · exact hstore a x ha hx
  constructor
  · rintro rfl
    have hmatches : m.frame.Matches c.code seen := hresumes
    cases hanswers with
    | fall _ _ hturns =>
      exact ⟨hturns.code_eq.trans hf.code_eq, hnames, hmatches, hturns.blocks_eq.trans hf.blocks_eq,
        fun x hx => hnext x (hturns.ip_eq ▸ hx)⟩
    | jump _ ht _ hturns =>
      refine ⟨hturns.code_eq.trans hf.code_eq, hnames, hmatches,
        hturns.blocks_eq.trans hf.blocks_eq, fun x hx => ?_⟩
      exact hkeep x (hf.bound x (h.jump hi ht (hturns.ip_eq ▸ hx)))
    | @enter kind _ hop =>
      rw [hop] at hblock
      cases kind <;> cases hblock
    | leave hop =>
      rw [hop] at hblock
      cases hblock
  · rintro callee rfl v
    obtain ⟨-, hturns, -⟩ := hanswers
    exact ⟨hturns.code_eq.trans hf.code_eq, hnames, hresumes v,
      hturns.blocks_eq.trans hf.blocks_eq, fun x hx => hnext x (hturns.ip_eq ▸ hx)⟩

theorem getLast?_of_unwind {e : Exception} {steps : Nat} {mem : Memory} {z : Frame}
    (hz : z.blocks = []) {callers : List Frame} (hlast : callers.getLast? = some z) {index : Nat}
    {entries : List TraceEntry} {again : Bool}
    (hR : Run.unwind e steps mem f callers index entries again = .running R) :
    R.callers.getLast? = some z := by
  obtain ⟨-, passed, g, traced, hcallers, hhandler⟩ := Run.exists_handler_of_unwind hR
  have hlast' : (passed ++ g :: R.callers).getLast? = some z := by
    rw [← hcallers, getLast?_cons, hlast]
    rfl
  rw [getLast?_append_cons, getLast?_cons] at hlast'
  cases hR' : R.callers.getLast? with
  | some z' =>
    rw [hR'] at hlast'
    exact hlast'
  | none =>
    rw [hR'] at hlast'
    obtain rfl : g = z := Option.some.inj hlast'
    rw [Frame.enterHandler?, hz] at hhandler
    cases hhandler

theorem Bottom.of_proceed (hR : Bottom c settled seen r b R) (hcallers : R.callers ≠ [])
    (hproceed : R.proceed = .running R₁) : Bottom c settled seen r b R₁ := by
  obtain ⟨z, hz⟩ : ∃ z, R.callers.getLast? = some z :=
    ⟨_, getLast?_eq_some_getLast hcallers⟩
  have hready := hR.caller z hz
  -- it is enough that the outermost frame is where it was
  have hsame {R₁ : Run} (hlast : R₁.callers.getLast? = some z) : Bottom c settled seen r b R₁ := by
    refine ⟨fun hnil => ?_, fun z' hz' => ?_⟩
    · rw [hnil] at hlast
      cases hlast
    · rw [hlast] at hz'
      cases hz'
      exact hready
  obtain ⟨ins, -, hcontinues⟩ := Run.exists_continues hproceed
  cases hcontinues with
  | next => exact hsame hz
  | @ret v _ _ callers _ hc =>
    rw [hc] at hz
    cases callers with
    | nil =>
      cases hz
      exact ⟨fun _ => hready v, by simp⟩
    | cons c'' callers => exact hsame (by simpa using hz)
  | call =>
    refine hsame ?_
    rw [getLast?_cons, hz]
    rfl
  | raise _ h => exact hsame (getLast?_of_unwind (hready .none).blocks_eq hz h)

/-- The runs correspond, and their outermost frames are ready. -/
structure Pace (h : Resolution c d settled owned) (seen : Record) (r : ScopeRef) (b : Bindings)
    (ids : Pairing) (R R' : Run) : Prop where
  linked : R.Linked (h.alignment r b) (fun _ => b) ids R'
  owned : ∀ x, (b.get? x).isSome → owned x
  bottom : Bottom c settled seen r b R

structure Followed (h : Resolution c d settled owned) (seen : Record) (r : ScopeRef) (b : Bindings)
    (ids : Pairing) (p q : Progress) : Prop where
  linked : p.Linked (h.alignment r b) (fun _ => b) ids q
  owned : ∀ x, (b.get? x).isSome → owned x
  bottom : ∀ R, p = .running R → Bottom c settled seen r b R

section Pace

variable {h : Resolution c d settled owned} (hp : Pace h seen r b ids R R')
include hp

theorem Pace.aligned (hcallers : R.callers = []) :
    R.frame.Aligned (h.alignment r b) ids R'.frame := by
  have hframes := hp.linked.frames
  have hnames := (hp.bottom.frame hcallers).names_eq
  rw [hcallers] at hframes
  generalize R'.callers = callers' at hframes
  cases hframes with
  | bottom hfg => exact hfg
  | cons hfg _ => exact (hfg.base.names_shared hnames).elim

theorem Pace.lockstep (hcallers : R.callers ≠ []) :
    R.frame.Linked (.whole (· ≠ r) True) ids R'.frame ∧
      FramesLinked (h.alignment r b) ids R.callers R'.callers := by
  have hframes := hp.linked.frames
  generalize R.callers = callers at hcallers hframes
  generalize R'.callers = callers' at hframes
  cases hframes with
  | bottom => exact absurd rfl hcallers
  | cons hfg hs => exact ⟨hfg, hs⟩

theorem Pace.off_iff :
    R.frame.code.code[R.frame.ip]? = none ↔ R'.frame.code.code[R'.frame.ip]? = none := by
  rw [getElem?_eq_none_iff, getElem?_eq_none_iff]
  by_cases hcallers : R.callers = []
  · have hbase : Base c d r b ids R.frame.bare R'.frame.bare := (hp.aligned hcallers).base
    have hc : R.frame.code = c := hbase.code_eq
    have hd : R'.frame.code = d := hbase.code_eq'
    have hip : R.frame.ip = R'.frame.ip := hbase.ip_eq
    rw [hc, hd, hip, h.length_eq]
  · have hfg := (hp.lockstep hcallers).1
    have hc : R.frame.code = R'.frame.code := hfg.base.code_eq
    have hip : R.frame.ip = R'.frame.ip := hfg.base.ip_eq
    rw [hc, hip]

variable (hs : Survey c.code seen deepest [])
include hs

theorem Pace.proceed_of_active (hcallers : R.callers = []) :
    ∃ b', Followed h seen r b' ids R.proceed R'.proceed := by
  have hready := hp.bottom.frame hcallers
  have hfg := hp.aligned hcallers
  have hcallers' : R'.callers = [] := by
    have hlength := hp.linked.frames.tail.length_eq
    rw [hcallers] at hlength
    exact eq_nil_of_length_eq_zero hlength.symm
  have hbase : Base c d r b ids R.frame.bare R'.frame.bare := hfg.base
  have hip : R.frame.ip = R'.frame.ip := hbase.ip_eq
  have hcode' : R'.frame.code = d := hbase.code_eq'
  obtain ⟨i, hi⟩ := hready.fits.exists_ins hs
  obtain ⟨i', hi'⟩ : ∃ i', d.code[R'.frame.ip]? = some i' := by
    refine ⟨_, getElem?_eq_getElem ?_⟩
    rw [← h.length_eq, ← hip]
    exact (List.getElem?_eq_some_iff.1 hi).1
  obtain ⟨blocks, hv, hends⟩ := hready.fits.visited hs hi
  have hblock : i.opcode.movesBlock = false := by
    cases h.twins hi (hip ▸ hi') with
    | same _ hblock => exact hblock
    | _ => rfl
  obtain ⟨b', hexecute, howned, hkeep, hstore⟩ := h.execute_linked hfg hp.linked.memory hi hi'
    hp.owned hready.bound (Int.ofNat_le.1 hv.pops_le)
  have hanswers {signal : Signal} {m : Moment}
      (hm : execute i R.frame.ip ⟨R.frame.ahead, R.memory⟩ = .ok signal m) :=
    hready.execute h hs hi hblock hkeep hstore hm (by
      rw [hm] at hexecute
      generalize execute i' _ _ = q at hexecute
      cases hexecute with
      | ok _ _ hmm => exact (hmm.frame.base : Base c d r b' _ _ _).names_eq)
  have hi₀ : R.frame.code.code[R.frame.ip]? = some i := hready.code_eq ▸ hi
  refine ⟨b', ⟨?_, howned, fun R₁ hR₁ => ?_⟩⟩
  · refine Run.proceed_linked_of_execute (B := h.alignment r b') (fun _ => trivial)
      hp.linked.steps_eq hi₀ (hcode' ▸ hi') hexecute hp.linked.frames.names_eq
      (fun {_ f' g'} hfg' => ?_) (fun _ hfg' => ?_)
    · have hbase' : Base c d r b' _ f'.bare g'.bare := hfg'.base
      have hc : f'.code = c := hbase'.code_eq
      have hd : g'.code = d := hbase'.code_eq'
      rw [Frame.entry, Frame.entry, hc, hd, hip]
      exact h.entry_eq _
    · rw [hcallers, hcallers']
      exact .bottom hfg'
  · obtain ⟨j, hj, hcontinues⟩ := Run.exists_continues hR₁
    obtain rfl : i = j := Option.some.inj (hi₀.symm.trans hj)
    cases hcontinues with
    | next hm => exact ⟨fun _ => (hanswers hm).1 rfl, by simp [hcallers]⟩
    | ret _ hc =>
      rw [hcallers] at hc
      cases hc
    | @call callee m hm =>
      refine ⟨by simp, fun z hz => ?_⟩
      rw [hcallers] at hz
      obtain rfl : m.frame = z := Option.some.inj hz
      exact (hanswers hm).2 callee rfl
    | raise hm hunwind =>
      have hinterrupted := (Exec.ends_iff.1 (hends R.memory)).2 _ _ hm
      rw [hcallers, Run.unwind_eq] at hunwind
      dsimp only [Frame.enterHandler?] at hunwind
      rw [hinterrupted.blocks_eq.trans hready.blocks_eq] at hunwind
      cases hunwind

theorem Pace.proceed : ∃ b', Followed h seen r b' ids R.proceed R'.proceed := by
  by_cases hcallers : R.callers = []
  · exact hp.proceed_of_active hs hcallers
  · obtain ⟨hfg, hcs⟩ := hp.lockstep hcallers
    exact ⟨b, hp.linked.proceed hfg hcs fun _ _ _ => trivial, hp.owned,
      fun R₁ hR₁ => hp.bottom.of_proceed hcallers hR₁⟩

theorem Pace.advance (limits : Limits) :
    ∃ b', Followed h seen r b' ids (R.advance limits) (R'.advance limits) := by
  rcases hp.linked.advance_cases trivial hp.off_iff limits with
    ⟨cause, hR, hR'⟩ | ⟨n, hR, hR'⟩
  · rw [hR, hR']
    refine ⟨b, .ended le_rfl (.fatal (fun _ => rfl) hp.linked.frames.names_eq) hp.linked.memory,
      hp.owned, fun _ h => ?_⟩
    cases h
  · obtain ⟨b', hfollowed⟩ := hp.proceed hs
    rw [hR, hR']
    refine ⟨b', Run.entering_linked hfollowed.linked limits n, hfollowed.owned, fun R₁ hR₁ => ?_⟩
    refine hfollowed.bottom R₁ ?_
    generalize R.proceed = p at hR₁
    cases p with
    | ended => cases hR₁
    | running R₂ =>
      rw [Run.entering] at hR₁
      split_ifs at hR₁
      exact hR₁

theorem Pace.go (limits : Limits) (fuel : Nat) :
    Option.Rel (fun p q => p.1 = q.1 ∧ p.2.SameBut r q.2) (Run.go limits fuel R)
      (Run.go limits fuel R') := by
  induction fuel generalizing R R' b ids with
  | zero => exact .none
  | succ fuel ih =>
    obtain ⟨b', hfollowed⟩ := hp.advance hs limits
    have hlinked := hfollowed.linked
    have hbottom := hfollowed.bottom
    rw [Run.go, Run.go]
    generalize R.advance limits = p at hlinked hbottom ⊢
    generalize R'.advance limits = q at hlinked ⊢
    cases hlinked with
    | running _ hlinked => exact ih ⟨hlinked, hfollowed.owned, hbottom _ rfl⟩
    | ended _ ho hm => exact .some ⟨ho.eq (hm.store.exact trivial).2, hm.sameBut⟩

end Pace

end Runs

end Resolution

end Bytewright
