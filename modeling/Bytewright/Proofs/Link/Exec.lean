import Bytewright.Machine.Step
import Bytewright.Proofs.Link.Object

/-!
# Instructions on linked frames

Two frames whose stacks hold values that correspond, and that execute corresponding instructions,
are left with values that correspond, or are stopped for the same reason.
-/

namespace Bytewright

open List

/-! ### Alignments -/

def Frame.bare (f : Frame) : Frame := { f with stack := [], blocks := [], handled := none }

/-- What two runs in step need of their frames and of where they jump. -/
structure Alignment (K : Sharing) where
  base : Pairing → Frame → Frame → Prop
  target : Nat → Nat → Prop
  exact : Prop
  mono : ∀ {ids ids' : Pairing} {f g : Frame}, ids ≤ ids' → base ids f g → base ids' f g
  jump : ∀ {ids : Pairing} {f g : Frame} {i j : Nat}, target i j → base ids f g →
    base ids { f with ip := i } { g with ip := j }
  reach : ∀ {ids : Pairing} {f g : Frame} {i j : Nat}, target i j → base ids f g →
    (i ≤ f.code.code.length ↔ j ≤ g.code.code.length)
  ip_eq : ∀ {ids : Pairing} {f g : Frame}, exact → base ids f g → f.ip = g.ip
  entry : ∀ {ids : Pairing} {f g : Frame}, base ids f g → f.entry (f.ip - 1) = g.entry (g.ip - 1)

variable {K : Sharing} {hidden : ScopeRef → Bindings} {ids ids' : Pairing} {A : Alignment K}
  {v w : Value} {vs ws : List Value} {f g : Frame} {s t : Store}

structure Block.Aligned (A : Alignment K) (b c : Block) : Prop where
  kind_eq : b.kind = c.kind
  level_eq : b.level = c.level
  handler : A.target b.handler c.handler

def HandledLinked (K : Sharing) (ids : Pairing) (p q : Exception × List TraceEntry) : Prop :=
  p.1.Linked K ids q.1 ∧ p.2 = q.2

/-- The frames correspond, with code and locals as the alignment says. -/
structure Frame.Aligned (A : Alignment K) (ids : Pairing) (f g : Frame) : Prop where
  base : A.base ids f.bare g.bare
  stack : LinkedAll K ids f.stack g.stack
  blocks : Forall₂ (Block.Aligned A) f.blocks g.blocks
  handled : Option.Rel (HandledLinked K ids) f.handled g.handled
  globals_eq : f.globals = g.globals
  globals_shared : K.scopes f.globals

/-- Frame and memory correspond. -/
structure Moment.Linked (A : Alignment K) (hidden : ScopeRef → Bindings) (ids : Pairing)
    (m n : Moment) : Prop where
  frame : m.frame.Aligned A ids n.frame
  memory : m.memory.Linked K hidden ids n.memory

inductive Stop.Linked (K : Sharing) (exact : Prop) (ids : Pairing) : Stop → Stop → Prop
  | raise {e e' : Exception} (h : e.Linked K ids e') (entries : List TraceEntry) (again : Bool) :
      Linked K exact ids (.raise e entries again) (.raise e' entries again)
  | fatal {c c' : Fatal} (h : exact → c = c') : Linked K exact ids (.fatal c) (.fatal c')
  | crash : Linked K exact ids .crash .crash

theorem Frame.Aligned.mono (h : f.Aligned A ids g) (hle : ids ≤ ids') :
    f.Aligned A ids' g where
  base := A.mono hle h.base
  stack := h.stack.mono hle
  blocks := h.blocks
  handled := by
    have hhandled := h.handled
    generalize f.handled = p at hhandled ⊢
    generalize g.handled = q at hhandled ⊢
    cases hhandled with
    | none => exact .none
    | some hpq => exact .some ⟨hpq.1.mono hle, hpq.2⟩
  globals_eq := h.globals_eq
  globals_shared := h.globals_shared

theorem Frame.Aligned.withStack (h : f.Aligned A ids g) (hvs : LinkedAll K ids vs ws) :
    Frame.Aligned A ids { f with stack := vs } { g with stack := ws } :=
  { h with stack := hvs }

theorem Frame.Aligned.ip_eq (h : f.Aligned A ids g) (hexact : A.exact) :
    f.ip = g.ip := (A.ip_eq hexact h.base : f.bare.ip = g.bare.ip)

namespace Exec

variable {α α' β β' : Type} {R : Pairing → α → α' → Prop} {S : Pairing → β → β' → Prop}
  {e e' : Exception}

/-- From what corresponds, the operations come to what corresponds. -/
def Simulates (A : Alignment K) (hidden : ScopeRef → Bindings) (ids : Pairing)
    (R : Pairing → α → α' → Prop) (x : Exec α) (y : Exec α') : Prop :=
  ∀ m n, Moment.Linked A hidden ids m n →
    ResultLinked ids (Stop.Linked K A.exact) (Moment.Linked A hidden) R (x m) (y n)

theorem Simulates.bind {x : Exec α} {y : Exec α'} {f : α → Exec β} {g : α' → Exec β'}
    (hx : Simulates A hidden ids R x y)
    (hf : ∀ ids' a b, ids ≤ ids' → R ids' a b → Simulates A hidden ids' S (f a) (g b)) :
    Simulates A hidden ids S (x >>= f) (y >>= g) := by
  intro m n hmn
  have hxy := hx m n hmn
  show ResultLinked _ _ _ _ (EStateM.bind x f m) (EStateM.bind y g n)
  unfold EStateM.bind
  generalize x m = p at hxy ⊢
  generalize y n = q at hxy ⊢
  cases hxy with
  | ok hle h hm => exact (hf _ _ _ hle h _ _ hm).of_le hle
  | error hle h hm => exact .error hle h hm

theorem Simulates.weaken {x : Exec α} {y : Exec α'} (h : Simulates A hidden ids R x y) :
    Simulates A hidden ids (fun _ _ _ => True) x y := by
  intro m n hmn
  have hxy := h m n hmn
  generalize x m = p at hxy ⊢
  generalize y n = q at hxy ⊢
  cases hxy with
  | ok hle _ hm => exact .ok hle trivial hm
  | error hle h hm => exact .error hle h hm

theorem simulates_pure {a : α} {b : α'} (h : R ids a b) :
    Simulates A hidden ids R (pure a) (pure b) := fun _ _ hmn => .ok le_rfl h hmn

/-! ### Stops -/

theorem simulates_fatal {c c' : Fatal} (h : A.exact → c = c') :
    Simulates A hidden ids R (fatal c) (fatal c') := fun _ _ hmn => .error le_rfl (.fatal h) hmn

theorem simulates_raise (h : e.Linked K ids e') : Simulates A hidden ids R (raise e) (raise e') :=
  fun _ _ hmn => .error le_rfl (.raise h [] false) hmn

theorem simulates_raiseAgain (h : e.Linked K ids e') (entries : List TraceEntry) :
    Simulates A hidden ids R (raiseAgain e entries) (raiseAgain e' entries) :=
  fun _ _ hmn => .error le_rfl (.raise h entries true) hmn

theorem simulates_fail {f g : Failure} (h : f.Linked K ids g) :
    Simulates A hidden ids R (fail f) (fail g) := by
  intro m n hmn
  obtain ⟨ids', hle, he, hst⟩ := hmn.memory.store.failed h
  exact .error hle (.raise he [] false) ⟨hmn.frame.mono hle, hmn.memory.withStore hle hst⟩

/-! ### Frame, store and stack -/

section Basic

variable {x : Exec β} {y : Exec β'}

theorem simulates_frame {f : Frame → Exec β} {g : Frame → Exec β'}
    (h : ∀ k l, k.Aligned A ids l → Simulates A hidden ids S (f k) (g l)) :
    Simulates A hidden ids S (frame >>= f) (frame >>= g) :=
  fun m n hmn => h m.frame n.frame hmn.frame m n hmn

theorem simulates_store {f : Store → Exec β} {g : Store → Exec β'}
    (h : ∀ s t, Store.Linked K hidden ids s t → Simulates A hidden ids S (f s) (g t)) :
    Simulates A hidden ids S (store >>= f) (store >>= g) :=
  fun m n hmn => h m.memory.store n.memory.store hmn.memory.store m n hmn

theorem simulates_settle {b c : Bool} (hbc : b = c) (h : Simulates A hidden ids S x y) :
    Simulates A hidden ids S (settle b >>= fun _ => x) (settle c >>= fun _ => y) := by
  subst hbc
  cases b with
  | false => exact fun _ _ hmn => .error le_rfl .crash hmn
  | true => exact h

theorem simulates_setStore (hle : ids ≤ ids') (hst : Store.Linked K hidden ids' s t) :
    Simulates A hidden ids (fun ids'' (_ _ : Unit) => ids'' = ids') (setStore s) (setStore t) :=
  fun _ _ hmn => .ok hle rfl ⟨hmn.frame.mono hle, hmn.memory.withStore hle hst⟩

theorem simulates_setFrame (h : f.Aligned A ids g) :
    Simulates A hidden ids (fun ids' (_ _ : Unit) => ids' = ids) (setFrame f) (setFrame g) :=
  fun _ _ hmn => .ok le_rfl rfl ⟨h, hmn.memory⟩

theorem simulates_push (h : v.Linked K ids w) :
    Simulates A hidden ids (fun ids' (_ _ : Unit) => ids' = ids) (push v) (push w) :=
  fun _ _ hmn => .ok le_rfl rfl ⟨hmn.frame.withStack (.cons h hmn.frame.stack), hmn.memory⟩

theorem Simulates.seq {z z' : Exec Unit}
    (hz : Simulates A hidden ids (fun ids'' (_ _ : Unit) => ids'' = ids') z z')
    (hx : Simulates A hidden ids' S x y) :
    Simulates A hidden ids S (z >>= fun _ => x) (z' >>= fun _ => y) :=
  hz.bind fun _ _ _ _ heq => heq ▸ hx

theorem simulates_pop {f : Value → Exec β} {g : Value → Exec β'}
    (h : ∀ v w, v.Linked K ids w → Simulates A hidden ids S (f v) (g w)) :
    Simulates A hidden ids S (pop >>= f) (pop >>= g) := by
  have hpop : Simulates A hidden ids (fun ids' v w => ids' = ids ∧ v.Linked K ids w) pop pop := by
    intro m n hmn
    have hstack := hmn.frame.stack
    have hip := hmn.frame.ip_eq
    unfold pop
    cases hs : m.frame.stack with
    | nil =>
      rw [hs] at hstack
      simp only [forall₂_nil_left_iff.1 hstack]
      exact .error le_rfl (.fatal fun hexact => by rw [hip hexact]) hmn
    | cons v stack =>
      rw [hs] at hstack
      obtain ⟨w, stack', hv, hrest, ht⟩ := forall₂_cons_left_iff.1 hstack
      simp only [ht]
      exact .ok le_rfl ⟨rfl, hv⟩ ⟨hmn.frame.withStack hrest, hmn.memory⟩
  refine hpop.bind ?_
  rintro _ v w - ⟨rfl, hv⟩
  exact h v w hv

theorem simulates_popMany (n : Nat) {f : List Value → Exec β} {g : List Value → Exec β'}
    (h : ∀ vs ws, LinkedAll K ids vs ws → Simulates A hidden ids S (f vs) (g ws)) :
    Simulates A hidden ids S (popMany n >>= f) (popMany n >>= g) := by
  have hpop : Simulates A hidden ids (fun ids' vs ws => ids' = ids ∧ LinkedAll K ids vs ws)
      (popMany n) (popMany n) := by
    intro m m' hmn
    have hstack := hmn.frame.stack
    have hip := hmn.frame.ip_eq
    unfold popMany
    rw [hstack.length_eq]
    split_ifs
    · exact .error le_rfl (.fatal fun hexact => by rw [hip hexact]) hmn
    · exact .ok le_rfl ⟨rfl, rel_reverse (forall₂_take n hstack)⟩
        ⟨hmn.frame.withStack (forall₂_drop n hstack), hmn.memory⟩
  refine hpop.bind ?_
  rintro _ vs ws - ⟨rfl, hvs⟩
  exact h vs ws hvs

theorem simulates_popCondition {f : Bool → Exec β} {g : Bool → Exec β'}
    (h : ∀ b, Simulates A hidden ids S (f b) (g b)) :
    Simulates A hidden ids S (popCondition >>= f) (popCondition >>= g) := by
  have hassoc {γ : Type} (k : Bool → Exec γ) : popCondition >>= k =
      pop >>= fun v => store >>= fun s => k (s.truthy v) := by
    funext m
    simp only [popCondition, bind, EStateM.bind]
    cases pop m <;> rfl
  rw [hassoc, hassoc]
  refine simulates_pop fun v w hv => simulates_store fun s t hst => ?_
  rw [hst.truthy_eq hv]
  exact h _

end Basic

/-! ### Operations on values that may fail -/

theorem simulates_orFail {γ γ' : Type} {Q : γ → γ' → Prop} {x : Except Failure γ}
    {y : Except Failure γ'} (hxy : ExceptLinked K ids Q x y) {f : γ → Exec β} {g : γ' → Exec β'}
    (h : ∀ a b, Q a b → Simulates A hidden ids S (f a) (g b)) :
    Simulates A hidden ids S (orFail x >>= f) (orFail y >>= g) := by
  cases hxy with
  | ok hab => exact h _ _ hab
  | error hfg => exact (simulates_fail hfg : Simulates A hidden ids S (fail _) (fail _))

theorem simulates_orFailWith {x : Except Failure (α × Store)} {y : Except Failure (α' × Store)}
    (hxy : ExceptLinked K ids (Store.LinkedWith K hidden ids R) x y) {f : α → Exec β}
    {g : α' → Exec β'}
    (h : ∀ ids' a b, ids ≤ ids' → R ids' a b → Simulates A hidden ids' S (f a) (g b)) :
    Simulates A hidden ids S (orFailWith x >>= f) (orFailWith y >>= g) := by
  cases hxy with
  | @ok p q hab =>
    obtain ⟨ids', hle, hR, hst⟩ := hab
    exact (simulates_setStore hle hst).seq (h ids' p.1 q.1 hle hR)
  | error hfg => exact (simulates_fail hfg : Simulates A hidden ids S (fail _) (fail _))

end Exec

/-! ### Frames in lockstep -/

structure Frame.LinkedBase (K : Sharing) (ids : Pairing) (f g : Frame) : Prop where
  code_eq : f.code = g.code
  ip_eq : f.ip = g.ip
  names_eq : f.names = g.names
  names_shared : K.scopes f.names
  fast : LinkedSlots K ids f.fast g.fast
  closure : LinkedAll K ids f.closure g.closure

def Alignment.lockstep (K : Sharing) : Alignment K where
  base := Frame.LinkedBase K
  target := Eq
  exact := True
  mono hle h :=
    { h with
      fast := h.fast.mono hle
      closure := h.closure.mono hle }
  jump hij h := { h with ip_eq := hij }
  reach hij h := by
    rw [hij, h.code_eq]
  ip_eq _ h := h.ip_eq
  entry h := by
    unfold Frame.entry
    rw [h.code_eq, h.ip_eq]

/-- Frames of one code unit that keep pace. -/
abbrev Frame.Linked (K : Sharing) : Pairing → Frame → Frame → Prop :=
  Frame.Aligned (Alignment.lockstep K)

inductive Signal.Linked (K : Sharing) (ids : Pairing) : Signal → Signal → Prop
  | next : Linked K ids .next .next
  | ret {v w : Value} (h : v.Linked K ids w) : Linked K ids (.ret v) (.ret w)
  | call {f g : Frame} (h : f.Linked K ids g) : Linked K ids (.call f) (.call g)

structure FunctionOf.Alike (K : Sharing) (ids : Pairing) (f g : Function) : Prop where
  code_eq : f.code = g.code
  defaults : LinkedAll K ids f.defaults g.defaults
  globals_eq : f.globals = g.globals
  globals_shared : K.scopes f.globals
  closure : LinkedAll K ids f.closure g.closure

theorem Value.Linked.alike {f g : Function} (h : (Value.function f).Linked K ids (.function g)) :
    f.Alike K ids g := by
  cases h with
  | function _ _ hr hdefaults hclosure => exact ⟨rfl, hdefaults, rfl, hr, hclosure⟩

theorem FunctionOf.frame_linked (hst : Store.Linked K hidden ids s t) {f g : Function}
    (hfg : f.Alike K ids g) {b c : Binding} (hbc : b.Linked K ids c) :
    Store.LinkedWith K hidden ids (Frame.Linked K) (f.frame b s) (g.frame c t) := by
  obtain ⟨i, unit, defaults, r, closure⟩ := f
  obtain ⟨j, unit', defaults', r', closure'⟩ := g
  obtain ⟨rfl : unit = unit', -, rfl : r = r', hr, hclosure⟩ := hfg
  -- the frame, once its arguments are in their slots and its names have a place
  have hframe {ids' : Pairing} (hle : ids ≤ ids') {slots slots' : List (Option Value)}
      (hslots : LinkedSlots K ids' slots slots') {names : ScopeRef}
      (hnames : K.scopes names) :
      Frame.Linked K ids'
        { code := unit, fast := slots ++ replicate (unit.varNames.length - slots.length) none
          names, globals := r, closure }
        { code := unit, fast := slots' ++ replicate (unit.varNames.length - slots'.length) none
          names, globals := r, closure := closure' } := by
    refine ⟨⟨rfl, rfl, rfl, hnames, ?_, LinkedAll.mono hle hclosure⟩, .nil, .nil, .none, rfl, hr⟩
    show Forall₂ _ (slots ++ _) (slots' ++ _)
    rw [hslots.length_eq]
    exact rel_append hslots (replicate_none_rel _)
  have hplace {ids' : Pairing} (hle : ids ≤ ids') {slots slots' : List (Option Value)}
      (hslots : LinkedSlots K ids' slots slots') {s t : Store}
      (hst : Store.Linked K hidden ids' s t) :
      Store.LinkedWith K hidden ids (Frame.Linked K)
        (let p := if unit.flags.contains .newLocals then s.newScope [] else (r, s);
          ({ code := unit, fast := slots ++ replicate (unit.varNames.length - slots.length) none
             names := p.1, globals := r, closure }, p.2))
        (let p := if unit.flags.contains .newLocals then t.newScope [] else (r, t);
          ({ code := unit
             fast := slots' ++ replicate (unit.varNames.length - slots'.length) none
             names := p.1, globals := r, closure := closure' }, p.2)) := by
    cases unit.flags.contains .newLocals with
    | true =>
      obtain ⟨hnew, hshared, hst'⟩ := hst.newScope (.nil : Forall₂ (LinkedNamed K ids') [] [])
      simp only [if_true, hnew]
      exact ⟨ids', hle, hframe hle hslots hshared, hst'⟩
    | false => exact ⟨ids', hle, hframe hle hslots hr, hst⟩
  have hnamed : LinkedSlots K ids
      (b.params.map some ++ if unit.takesRest then [some (.tuple b.rest)] else [])
      (c.params.map some ++ if unit.takesRest then [some (.tuple c.rest)] else []) := by
    refine rel_append (map_some_rel hbc.params) ?_
    split_ifs
    · exact .cons (.some (.tuple hbc.rest)) .nil
    · exact .nil
  unfold FunctionOf.frame
  cases hextra : unit.takesExtra with
  | false =>
    simp only [hextra, Bool.false_eq_true, if_false]
    exact hplace le_rfl hnamed hst
  | true =>
    have hpairs : Forall₂ (LinkedPair K ids) (b.extra.map fun p => (.str p.1, p.2))
        (c.extra.map fun p => (.str p.1, p.2)) :=
      rel_map (fun p q hpq => ⟨hpq.1 ▸ .str p.1, hpq.2⟩) hbc.extra
    obtain ⟨ids', hle, hdict, hst'⟩ := hst.newDict hpairs
    have hall := rel_append (hnamed.mono hle) (.cons (.some hdict) .nil)
    simp only [hextra, if_true]
    exact hplace hle hall hst'

theorem FunctionOf.bind_linked (hst : Store.Linked K hidden ids s t) {f g : Function}
    (hfg : f.Alike K ids g) (hvs : LinkedAll K ids vs ws) {kwargs kwargs' : Keywords}
    (hkwargs : Forall₂ (LinkedNamed K ids) kwargs kwargs') :
    (∃ p q, f.bind vs kwargs s = .ok p ∧ g.bind ws kwargs' t = .ok q ∧
        Store.LinkedWith K hidden ids (Frame.Linked K) p q) ∨
      (∃ e e', f.bind vs kwargs s = .error (.inl e) ∧ g.bind ws kwargs' t = .error (.inl e') ∧
        e.Linked K ids e') ∨
      ∃ cause, f.bind vs kwargs s = .error (.inr cause) ∧
        g.bind ws kwargs' t = .error (.inr cause) := by
  unfold FunctionOf.bind
  rw [hfg.code_eq]
  dsimp only
  split_ifs
  · exact .inr (.inr ⟨_, rfl, rfl⟩)
  · rcases (bindArguments_linked g.code hfg.defaults hvs hkwargs).cases with
      ⟨b, c, hs, ht, hbc⟩ | ⟨e, e', hs, ht, he⟩
    · simp only [hs, ht]
      exact .inl ⟨_, _, rfl, rfl, FunctionOf.frame_linked hst hfg hbc⟩
    · simp only [hs, ht]
      exact .inr (.inl ⟨_, _, rfl, rfl, he⟩)

end Bytewright
