import Bytewright.Proofs.Link.Shift
import Bytewright.Proofs.Tracing.Watch

/-!
# Exact correspondence

Where identities are the same on both sides, what corresponds is equal, and runs can be compared by
equations.
-/

namespace Bytewright

open List

abbrev Sharing.same : Sharing := .whole (fun _ => True) True

/-! ### Reflexivity -/

mutual

theorem Value.linked_refl : ∀ v : Value, v.Linked .same Eq v
  | .none => .none
  | .bool b => .bool b
  | .int n => .int n
  | .float x => .float x
  | .str t => .str t
  | .tuple items => .tuple (linkedAll_refl items)
  | .list _ => .list trivial
  | .dict _ => .dict trivial
  | .space _ => .space trivial
  | .code _ unit => .code rfl unit
  | .function ⟨_, _, defaults, _, closure⟩ =>
    .function trivial rfl trivial (linkedAll_refl defaults) (linkedAll_refl closure)
  | .builtin b => .builtin b
  | .exceptionType kind => .exceptionType kind
  | .exception ⟨_, kind, args⟩ => .exception rfl kind (linkedAll_refl args)
  | .traceback _ entries => .traceback rfl entries
  | .iterator _ => .iterator trivial
  | .hook _ => .hook rfl
  | .method _ _ call => .method rfl rfl call

theorem linkedAll_refl : ∀ vs : List Value, LinkedAll .same Eq vs vs
  | [] => .nil
  | v :: vs => .cons (Value.linked_refl v) (linkedAll_refl vs)

end

theorem linkedSlots_refl (slots : List (Option Value)) : LinkedSlots .same Eq slots slots :=
  forall₂_same.2 fun slot _ => by
    cases slot with
    | none => exact .none
    | some v => exact .some v.linked_refl

theorem CellsLinked.refl {α : Type} {E : α → α → Prop} (hE : ∀ x, E x x) (a : Array (List α)) :
    CellsLinked (fun _ => True) E a a :=
  .self (p := fun _ => true) (by simp) fun _ _ => forall₂_same.2 fun x _ => hE x

theorem Store.linked_refl (s : Store) (hidden : ScopeRef → Bindings) :
    Store.Linked .same hidden Eq s s :=
  ⟨.refl Value.linked_refl _, .refl (fun p => ⟨p.1.linked_refl, p.2.linked_refl⟩) _,
    .refl (fun p => ⟨rfl, p.2.linked_refl⟩) _, .refl Value.linked_refl _, Pairing.sound_eq _,
    fun _ hr => absurd trivial hr, fun _ => ⟨rfl, fun _ _ h => h⟩,
    fun hexact => absurd trivial hexact⟩

theorem Memory.linked_refl (m : Memory) (hidden : ScopeRef → Bindings) :
    m.Linked .same hidden Eq m :=
  ⟨m.store.linked_refl hidden, fun _ => forall₂_same.2 fun _ _ => .inl rfl⟩

theorem Frame.linked_refl (f : Frame) : f.Linked .same Eq f where
  base := ⟨rfl, rfl, rfl, trivial, linkedSlots_refl _, linkedAll_refl _⟩
  stack := linkedAll_refl _
  blocks := forall₂_same.2 fun _ _ => ⟨rfl, rfl, rfl⟩
  handled := by
    cases f.handled with
    | none => exact .none
    | some p => exact .some ⟨Value.linked_refl _, rfl⟩
  globals_eq := rfl
  globals_shared := trivial

/-! ### Equality -/

section Equality

variable {ids : Pairing} {hidden : ScopeRef → Bindings} {K : Sharing}

theorem LinkedSlots.eq (hids : ∀ a b, ids a b → a = b) {slots slots' : List (Option Value)}
    (h : LinkedSlots K ids slots slots') : slots = slots' :=
  eq_of_forall₂ (fun x y hxy => by
    cases hxy with
    | none => rfl
    | some hvw => rw [hvw.eq hids]) h

theorem Memory.Linked.eq {m n : Memory} (h : m.Linked .same hidden ids n) : m = n := by
  have hlog : m.log = n.log := eq_of_forall₂ (fun e e' he => by
    rcases he with rfl | ⟨hcall, hidden', ids', -, hoperands, hst⟩
    · rfl
    · obtain ⟨call, operands, store⟩ := e
      obtain ⟨call', operands', store'⟩ := e'
      cases hcall
      cases eq_of_forall₂ (fun o o' ho => ho.eq (hst.exact trivial).2) hoperands
      cases hst.eq
      rfl) (h.log trivial)
  obtain ⟨store, log⟩ := m
  obtain ⟨store', log'⟩ := n
  cases h.store.eq
  cases hlog
  rfl

theorem HandledLinked.eq (hids : ∀ a b, ids a b → a = b)
    {p q : Option (Exception × List TraceEntry)} (h : Option.Rel (HandledLinked K ids) p q) :
    p = q := by
  cases h with
  | none => rfl
  | @some p q hpq =>
    obtain ⟨e, entries⟩ := p
    obtain ⟨e', entries'⟩ := q
    obtain ⟨he, hentries⟩ := hpq
    cases Value.Linked.eq hids he
    cases hentries
    rfl

theorem Block.Aligned.eq {A : Alignment K} (hA : ∀ i j, A.target i j → i = j)
    {blocks blocks' : List Block} (h : List.Forall₂ (Block.Aligned A) blocks blocks') :
    blocks = blocks' :=
  eq_of_forall₂ (fun b b' hb => by
    obtain ⟨kind, handler, level⟩ := b
    obtain ⟨kind', handler', level'⟩ := b'
    obtain ⟨hkind : kind = kind', hlevel : level = level', hhandler⟩ := hb
    have hhandler' : handler = handler' := hA _ _ hhandler
    rw [hkind, hlevel, hhandler']) h

theorem Frame.Linked.eq (hids : ∀ a b, ids a b → a = b) {f g : Frame} (h : f.Linked K ids g) :
    f = g := by
  have hcode : f.code = g.code := h.base.code_eq
  have hip : f.ip = g.ip := h.base.ip_eq
  have hnames : f.names = g.names := h.base.names_eq
  have hfast : f.fast = g.fast := LinkedSlots.eq hids h.base.fast
  have hclosure : f.closure = g.closure := LinkedAll.eq hids h.base.closure
  have hblocks : f.blocks = g.blocks := Block.Aligned.eq (fun _ _ hij => hij) h.blocks
  have hstack : f.stack = g.stack := LinkedAll.eq hids h.stack
  have hhandled : f.handled = g.handled := HandledLinked.eq hids h.handled
  have hglobals : f.globals = g.globals := h.globals_eq
  obtain ⟨code, fast, names, globals, closure, stack, blocks, handled, ip⟩ := f
  obtain ⟨code', fast', names', globals', closure', stack', blocks', handled', ip'⟩ := g
  cases hcode
  cases hip
  cases hnames
  cases hfast
  cases hclosure
  cases hblocks
  cases hstack
  cases hhandled
  cases hglobals
  rfl

end Equality

namespace Shift

variable {S : Shift True} {f g : Frame} {ids : Pairing} {r r' : Run} {fs gs : List Frame}

/-! ### Frames -/

def equip (S : Shift True) (f : Frame) : Frame :=
  { f with code := S.shifted, fast := S.extra.map some ++ f.fast }

structure Fits (S : Shift True) (f : Frame) : Prop where
  code_eq : f.code = S.plain
  ip_le : f.ip ≤ S.limit
  handler_le : ∀ b ∈ f.blocks, b.handler ≤ S.limit

theorem Fits.aligned (h : S.Fits f) : f.Aligned S.alignment Eq (S.equip f) where
  base :=
    { plain := h.code_eq
      shifted := rfl
      ip_le := h.ip_le
      ip_eq := (S.place_eq trivial _ h.ip_le).symm
      names_eq := rfl
      fast := ⟨f.fast, rfl, linkedSlots_refl _⟩
      closure := linkedAll_refl _ }
  stack := linkedAll_refl _
  blocks := forall₂_same.2 fun b hb =>
    ⟨rfl, rfl, h.handler_le b hb, (S.place_eq trivial _ (h.handler_le b hb)).symm⟩
  handled := f.linked_refl.handled
  globals_eq := rfl
  globals_shared := trivial

theorem Fits.of_aligned (h : f.Aligned S.alignment ids g) (hids : ∀ a b, ids a b → a = b) :
    g = S.equip f ∧ S.Fits f := by
  have hhandlers : List.Forall₂ (fun b b' => b.handler ≤ S.limit ∧ Block.Aligned S.alignment b b')
      f.blocks g.blocks := h.blocks.imp fun _ _ hb => ⟨hb.handler.1, hb⟩
  refine ⟨?_, h.base.plain, h.base.ip_le, ((forall₂_and_left _ _).1 hhandlers).1⟩
  obtain ⟨rest, hrest, hslots⟩ := h.base.fast
  have hcode : g.code = S.shifted := h.base.shifted
  have hip : f.ip = g.ip := (S.place_eq trivial _ h.base.ip_le).symm.trans h.base.ip_eq.symm
  have hnames : f.names = g.names := h.base.names_eq
  have hfast : g.fast = S.extra.map some ++ f.fast := by
    rw [show f.fast = rest from LinkedSlots.eq hids hslots]
    exact hrest
  have hclosure : f.closure = g.closure := LinkedAll.eq hids h.base.closure
  have hblocks : f.blocks = g.blocks :=
    Block.Aligned.eq (fun i j hij => (hij.2.trans (S.place_eq trivial i hij.1)).symm) h.blocks
  have hstack : f.stack = g.stack := LinkedAll.eq hids h.stack
  have hhandled : f.handled = g.handled := HandledLinked.eq hids h.handled
  have hglobals : f.globals = g.globals := h.globals_eq
  obtain ⟨code', fast', names', globals', closure', stack', blocks', handled', ip'⟩ := g
  simp only at hcode hip hnames hfast hclosure hblocks hstack hhandled hglobals
  rw [equip, hcode, ← hip, ← hnames, hfast, ← hclosure, ← hblocks, ← hstack, ← hhandled, ← hglobals]

/-! ### Runs -/

/-- The frames are the same, but for the outermost one, which is equipped. -/
inductive Beside (S : Shift True) : List Frame → List Frame → Prop
  | bottom {f : Frame} (h : S.Fits f) : Beside S [f] [S.equip f]
  | cons (f : Frame) {fs gs : List Frame} (hs : Beside S fs gs) : Beside S (f :: fs) (f :: gs)

/-- The runs are the same, but for the outermost frame, which is equipped. -/
structure Equips (S : Shift True) (r r' : Run) : Prop where
  frames : S.Beside (r.frame :: r.callers) (r'.frame :: r'.callers)
  memory_eq : r.memory = r'.memory
  steps_eq : r.steps = r'.steps

inductive EquipsProgress (S : Shift True) : Progress → Progress → Prop
  | running {r r' : Run} (h : S.Equips r r') : EquipsProgress S (.running r) (.running r')
  | ended (o : Outcome) (m : Memory) : EquipsProgress S (.ended o m) (.ended o m)

theorem Beside.linked (h : S.Beside fs gs) : FramesLinked S.alignment Eq fs gs := by
  induction h with
  | bottom h => exact .bottom h.aligned
  | cons f _ ih => exact .cons f.linked_refl ih

theorem Beside.of_linked (h : FramesLinked S.alignment ids fs gs) (hids : ∀ a b, ids a b → a = b) :
    S.Beside fs gs ∨ fs = gs := by
  induction h with
  | nil => exact .inr rfl
  | bottom h =>
    obtain ⟨rfl, hfits⟩ := Fits.of_aligned h hids
    exact .inl (.bottom hfits)
  | cons h _ ih =>
    obtain rfl := h.eq hids
    exact ih.imp (.cons _) (congrArg _)

theorem Beside.base (h : S.Beside (r.frame :: r.callers) (r'.frame :: r'.callers)) :
    r.base = S.plain ∧ r'.base = S.shifted := by
  obtain ⟨f, fs, steps, m⟩ := r
  obtain ⟨g, gs, steps', m'⟩ := r'
  change S.Beside (f :: fs) (g :: gs) at h
  show Run.baseOf f fs = _ ∧ Run.baseOf g gs = _
  induction fs generalizing f g gs with
  | nil =>
    cases h with
    | bottom h => exact ⟨h.code_eq, rfl⟩
    | cons _ hs => cases hs
  | cons c fs ih =>
    cases h with
    | @cons _ _ gs hs =>
      cases gs with
      | nil => cases hs
      | cons d gs =>
        rw [Run.baseOf_cons, Run.baseOf_cons]
        exact ih c d gs hs

theorem EquipsProgress.of_linked {p q : Progress}
    (h : Progress.Linked S.alignment (fun _ => []) ids p q) (hne : S.plain ≠ S.shifted)
    (hp : ∀ r, p = .running r → r.base = S.plain) (hq : ∀ r, q = .running r → r.base = S.shifted) :
    S.EquipsProgress p q := by
  cases h with
  | @running ids' r r' _ h =>
    have hids := (h.memory.store.exact trivial).2
    refine .running ⟨(Beside.of_linked h.frames hids).resolve_right fun heq => hne ?_, h.memory.eq,
      h.steps_eq trivial⟩
    rw [cons.injEq] at heq
    rw [← hp r rfl, ← hq r' rfl, Run.base, Run.base, heq.1, heq.2]
  | ended _ ho hm =>
    rw [ho.eq (hm.store.exact trivial).2, hm.eq]
    exact .ended _ _

theorem Equips.outermost (h : S.Equips r r') (hr : r.callers = []) :
    S.Fits r.frame ∧ r' = ⟨S.equip r.frame, [], r.steps, r.memory⟩ := by
  obtain ⟨f, callers, steps, m⟩ := r
  obtain ⟨g, callers', steps', m'⟩ := r'
  obtain ⟨hframes, rfl, rfl⟩ := h
  cases hr
  cases hframes with
  | bottom hfits => exact ⟨hfits, rfl⟩
  | cons _ hs => cases hs

/-- Up to the limit, the instructions of the two units do the same. -/
def Twinned (S : Shift True) : Prop :=
  ∀ n < S.limit, ∀ i, S.plain.code[n]? = some i →
    ∃ i', S.shifted.code[n]? = some i' ∧ S.Twin n n i i'

theorem Equips.proceed (h : S.Equips r r') (hne : S.plain ≠ S.shifted) (htwinned : S.Twinned)
    (hlimit : r.callers = [] → r.frame.ip < S.limit) : S.EquipsProgress r.proceed r'.proceed := by
  obtain ⟨hbase, hbase'⟩ := h.frames.base
  have hlinked : Progress.Linked S.alignment (fun _ => []) Eq r.proceed r'.proceed := by
    have hrun : r.Linked S.alignment (fun _ => []) Eq r' :=
      ⟨h.frames.linked, h.memory_eq ▸ r.memory.linked_refl _, fun _ => h.steps_eq⟩
    have hframes := h.frames
    have hsteps := h.steps_eq
    obtain ⟨f, fs, steps, m⟩ := r
    obtain ⟨g, gs, steps', m'⟩ := r'
    cases hframes with
    | bottom hfits =>
      have hip : f.ip < S.limit := hlimit rfl
      have hlt : f.ip < S.plain.code.length := hip.trans_le S.limit_le
      obtain ⟨i', hi', htwin⟩ := htwinned f.ip hip _ (getElem?_eq_getElem hlt)
      exact S.proceed_linked hfits.aligned hrun.memory (getElem?_eq_getElem hlt) hi' hip
        (S.place_eq trivial _ hip) htwin steps steps' fun _ => hsteps
    | cons _ hs => exact hrun.proceed f.linked_refl hs.linked fun _ _ _ => trivial
  exact .of_linked hlinked hne (fun _ hr => (Run.base_of_proceed hr).trans hbase)
    fun _ hr => (Run.base_of_proceed hr).trans hbase'

end Shift

end Bytewright
