import Bytewright.Proofs.Link.Execute
import Bytewright.Proofs.Machine.Unlimited

/-!
# Runs that keep pace

The outermost frames are aligned in whatever way the two programs ask for, and all others are in
lockstep.
-/

namespace Bytewright

open List

variable {K : Sharing} {hidden : ScopeRef → Bindings} {ids ids' : Pairing} {A : Alignment K}
  {p q : Progress}

/-! ### Handlers -/

theorem findHandler?_linked {blocks blocks' : List Block}
    (hblocks : List.Forall₂ (Block.Aligned A) blocks blocks') {vs ws : List Value}
    (hvs : LinkedAll K ids vs ws) :
    Option.Rel (fun p q => A.target p.1 q.1 ∧ LinkedAll K ids p.2.1 q.2.1 ∧
        List.Forall₂ (Block.Aligned A) p.2.2 q.2.2)
      (Frame.findHandler? blocks vs) (Frame.findHandler? blocks' ws) := by
  induction hblocks generalizing vs ws with
  | nil => exact .none
  | @cons b c outer outer' hbc houter ih =>
    have hstack := Exec.truncate_linked hvs b.level
    unfold Frame.findHandler?
    rw [← hbc.level_eq, ← hbc.kind_eq]
    cases b.kind with
    | except => exact .some ⟨hbc.handler, hstack, houter⟩
    | loop => exact ih hstack

theorem Frame.Aligned.enterHandler? {f g : Frame} (h : f.Aligned A ids g) {e e' : Exception}
    (he : e.Linked K ids e') (entries : List TraceEntry) {tb tb' : Value}
    (htb : tb.Linked K ids tb') :
    Option.Rel (Frame.Aligned A ids) (f.enterHandler? e entries tb)
      (g.enterHandler? e' entries tb') := by
  have hkind : e.kind = e'.kind := by
    cases he
    rfl
  unfold Frame.enterHandler?
  rcases optionRel_cases (findHandler?_linked h.blocks h.stack) with
    ⟨hf, hg⟩ | ⟨p, q, hf, hg, htarget, hstack, hblocks⟩
  · rw [hf, hg]
    exact .none
  · rw [hf, hg, hkind]
    exact .some
      { base := A.jump htarget h.base
        stack := .cons (.exceptionType _) (.cons he (.cons htb hstack))
        blocks := hblocks
        handled := .some ⟨he, rfl⟩
        globals_eq := h.globals_eq
        globals_shared := h.globals_shared }

/-! ### Runs -/

inductive FramesLinked (A : Alignment K) (ids : Pairing) : List Frame → List Frame → Prop
  | nil : FramesLinked A ids [] []
  | bottom {f g : Frame} (h : f.Aligned A ids g) : FramesLinked A ids [f] [g]
  | cons {f g : Frame} {fs gs : List Frame} (h : f.Linked K ids g) (hs : FramesLinked A ids fs gs) :
      FramesLinked A ids (f :: fs) (g :: gs)

/-- The frames and the memories correspond. -/
structure Run.Linked (A : Alignment K) (hidden : ScopeRef → Bindings) (ids : Pairing)
    (r r' : Run) : Prop where
  frames : FramesLinked A ids (r.frame :: r.callers) (r'.frame :: r'.callers)
  memory : r.memory.Linked K hidden ids r'.memory
  steps_eq : A.exact → r.steps = r'.steps

/-- The runs end alike. -/
inductive Outcome.Linked (K : Sharing) (exact : Prop) (ids : Pairing) : Outcome → Outcome → Prop
  | value {v w : Value} (h : v.Linked K ids w) : Linked K exact ids (.value v) (.value w)
  | raised {e e' : Exception} (h : e.Linked K ids e') (entries : List TraceEntry) :
      Linked K exact ids (.raised e entries) (.raised e' entries)
  | fatal {c c' : Fatal} {active active' : List String} (h : exact → c = c')
      (hactive : active = active') : Linked K exact ids (.fatal c active) (.fatal c' active')
  | crashed : Linked K exact ids .crashed .crashed

inductive Progress.Linked (A : Alignment K) (hidden : ScopeRef → Bindings) (ids : Pairing) :
    Progress → Progress → Prop
  | running {ids' : Pairing} {r r' : Run} (hle : ids ≤ ids') (h : r.Linked A hidden ids' r') :
      Linked A hidden ids (.running r) (.running r')
  | ended {ids' : Pairing} {o o' : Outcome} {m n : Memory} (hle : ids ≤ ids')
      (h : o.Linked K A.exact ids' o') (hm : m.Linked K hidden ids' n) :
      Linked A hidden ids (.ended o m) (.ended o' n)

theorem Progress.Linked.of_le (h : p.Linked A hidden ids' q) (hle : ids ≤ ids') :
    p.Linked A hidden ids q := by
  cases h with
  | running hle' h => exact .running (hle.trans hle') h
  | ended hle' h hm => exact .ended (hle.trans hle') h hm

namespace FramesLinked

variable {fs gs : List Frame}

theorem mono (h : FramesLinked A ids fs gs) (hle : ids ≤ ids') : FramesLinked A ids' fs gs := by
  induction h with
  | nil => exact .nil
  | bottom h => exact .bottom (h.mono hle)
  | cons h _ ih => exact .cons (h.mono hle) ih

theorem length_eq (h : FramesLinked A ids fs gs) : fs.length = gs.length := by
  induction h with
  | nil | bottom => rfl
  | cons _ _ ih => rw [length_cons, length_cons, ih]

theorem names_eq (h : FramesLinked A ids fs gs) : fs.map (·.code.name) = gs.map (·.code.name) := by
  have hname {B : Alignment K} {f g : Frame} (h : f.Aligned B ids g) : f.code.name = g.code.name :=
    congrArg TraceEntry.name (B.entry h.base)
  induction h with
  | nil => rfl
  | bottom h => rw [map_singleton, map_singleton, hname h]
  | cons h _ ih => rw [map_cons, map_cons, hname h, ih]

theorem exists_aligned {f g : Frame} (h : FramesLinked A ids (f :: fs) (g :: gs)) :
    ∃ B : Alignment K, f.Aligned B ids g ∧ ∀ {ids' : Pairing} {f' g' : Frame}, ids ≤ ids' →
      f'.Aligned B ids' g' → FramesLinked A ids' (f' :: fs) (g' :: gs) := by
  cases h with
  | bottom h => exact ⟨A, h, fun _ h' => .bottom h'⟩
  | cons h hs => exact ⟨.lockstep K, h, fun hle h' => .cons h' (hs.mono hle)⟩

theorem tail {f g : Frame} (h : FramesLinked A ids (f :: fs) (g :: gs)) :
    FramesLinked A ids fs gs := by
  cases h with
  | bottom => exact .nil
  | cons _ hs => exact hs

end FramesLinked

namespace Run

section Unwind

variable {e e' : Exception} (he : e.Linked K ids e') {steps steps' : Nat}
  (hsteps : A.exact → steps = steps') {m n : Memory} (hm : m.Linked K hidden ids n) {f g : Frame}
  {fs gs : List Frame} (hframes : FramesLinked A ids (f :: fs) (g :: gs)) {index index' : Nat}
  (hentry : f.entry index = g.entry index') (entries : List TraceEntry) (again : Bool)
include he hsteps hm hframes hentry entries again

theorem unwind_cases :
    Progress.Linked A hidden ids (unwind e steps m f fs index entries again)
        (unwind e' steps' n g gs index' entries again) ∨
      ∃ traced, unwind e steps m f fs index entries again = escape e steps m traced fs ∧
        unwind e' steps' n g gs index' entries again = escape e' steps' n traced gs := by
  obtain ⟨B, hB, hframes'⟩ := hframes.exists_aligned
  rw [unwind_eq e, unwind_eq e', ← hentry]
  generalize (if again then entries else f.entry index :: entries) = traced
  obtain ⟨ids', hle, htb, hst⟩ := hm.store.newTraceback traced
  have hhandler := (hB.mono hle).enterHandler? (he.mono hle) traced htb
  rcases optionRel_cases hhandler with ⟨hf, hg⟩ | ⟨h, h', hf, hg, hh⟩
  · simp only [hf, hg]
    exact .inr ⟨traced, rfl, rfl⟩
  · simp only [hf, hg]
    exact .inl (.running hle ⟨hframes' hle hh, hm.withStore hle hst, hsteps⟩)

theorem unwind_linked :
    Progress.Linked A hidden ids (unwind e steps m f fs index entries again)
      (unwind e' steps' n g gs index' entries again) := by
  induction fs generalizing f g gs index index' entries again with
  | nil =>
    obtain rfl : gs = [] := by
      cases hframes with
      | bottom => rfl
      | cons _ hs =>
        cases hs
        rfl
    rcases unwind_cases he hsteps hm hframes hentry entries again with
      hhandled | ⟨traced, hf, hg⟩
    · exact hhandled
    · rw [hf, hg]
      exact .ended le_rfl (.raised he traced) hm
  | cons c fs ih =>
    obtain ⟨d, ds, rfl⟩ : ∃ d ds, gs = d :: ds := by
      cases hframes with
      | cons _ hs => cases hs <;> exact ⟨_, _, rfl⟩
    rcases unwind_cases he hsteps hm hframes hentry entries again with
      hhandled | ⟨traced, hf, hg⟩
    · exact hhandled
    · rw [hf, hg]
      obtain ⟨B, hB, -⟩ := hframes.tail.exists_aligned
      exact ih hframes.tail (B.entry (f := c.bare) (g := d.bare) hB.base) traced false

end Unwind

variable {r r' : Run}

theorem proceed_linked_of_execute {B : Alignment K} (hexact : A.exact → B.exact)
    (hsteps : A.exact → r.steps = r'.steps) {ins ins' : Instruction}
    (hi : r.frame.code.code[r.frame.ip]? = some ins)
    (hi' : r'.frame.code.code[r'.frame.ip]? = some ins')
    (hexecute : ResultLinked ids (Stop.Linked K B.exact) (Moment.Linked B hidden) (Signal.Linked K)
      (execute ins r.frame.ip ⟨r.frame.ahead, r.memory⟩)
      (execute ins' r'.frame.ip ⟨r'.frame.ahead, r'.memory⟩)) (hactive : r.active = r'.active)
    (hentry : ∀ {ids' : Pairing} {f g : Frame}, f.Aligned B ids' g →
      f.entry r.frame.ip = g.entry r'.frame.ip)
    (hframes : ∀ {ids' : Pairing} {f g : Frame}, ids ≤ ids' → f.Aligned B ids' g →
      FramesLinked A ids' (f :: r.callers) (g :: r'.callers)) :
    Progress.Linked A hidden ids r.proceed r'.proceed := by
  have hnext : A.exact → r.steps + 1 = r'.steps + 1 := fun h => by rw [hsteps h]
  unfold proceed
  rw [hi, hi']
  dsimp only
  generalize execute ins _ _ = p at hexecute ⊢
  generalize execute ins' _ _ = q at hexecute ⊢
  cases hexecute with
  | ok hle hsignal hm =>
    have hall := hframes hle hm.frame
    cases hsignal with
    | next => exact .running hle ⟨hall, hm.memory, hnext⟩
    | ret hv =>
      have htail := hall.tail
      dsimp only [leave]
      generalize r.callers = fs at htail ⊢
      generalize r'.callers = gs at htail ⊢
      cases htail with
      | nil => exact .ended hle (.value hv) hm.memory
      | bottom h =>
        exact .running hle ⟨.bottom (h.withStack (.cons hv h.stack)), hm.memory, hnext⟩
      | cons h hs =>
        exact .running hle ⟨.cons (h.withStack (.cons hv h.stack)) hs, hm.memory, hnext⟩
    | call hcallee => exact .running hle ⟨.cons hcallee hall, hm.memory, hnext⟩
  | error hle hstop hm =>
    cases hstop with
    | raise he entries again =>
      exact (unwind_linked he hnext hm.memory (hframes hle hm.frame) (hentry hm.frame)
        entries again).of_le hle
    | fatal h => exact .ended hle (.fatal (fun hA => h (hexact hA)) hactive) hm.memory
    | crash => exact .ended hle .crashed hm.memory

theorem Linked.proceed (h : r.Linked A hidden ids r') (hframe : r.frame.Linked K ids r'.frame)
    (hcallers : FramesLinked A ids r.callers r'.callers)
    (hmake : ∀ ins, r.frame.code.code[r.frame.ip]? = some ins →
      ins.opcode = .count .makeFunction → K.functions) :
    Progress.Linked A hidden ids r.proceed r'.proceed := by
  have hcode : r.frame.code = r'.frame.code := hframe.base.code_eq
  have hip : r.frame.ip = r'.frame.ip := hframe.base.ip_eq
  have hactive : r.active = r'.active := h.frames.names_eq
  cases hi : r.frame.code.code[r.frame.ip]? with
  | none =>
    have hi' := hi
    rw [hcode, hip] at hi'
    unfold Run.proceed
    rw [hi, hi', hcode]
    exact .ended le_rfl (.fatal (fun _ => rfl) hactive) h.memory
  | some ins =>
    have hi' := hi
    rw [hcode, hip] at hi'
    have hmoment : Moment.Linked (.lockstep K) hidden ids ⟨r.frame.ahead, r.memory⟩
        ⟨r'.frame.ahead, r'.memory⟩ := by
      refine ⟨?_, h.memory⟩
      exact { hframe with base := { hframe.base with ip_eq := congrArg (· + 1) hip } }
    have hexecute := Exec.simulates_execute
      (Alignment.lockstep_matches r.frame.ip (hmake ins hi)) _ _ hmoment
    refine proceed_linked_of_execute (fun _ => trivial) h.steps_eq hi hi' (hip ▸ hexecute) hactive
      (fun {_ f g} hfg => ?_) (fun hle hfg => .cons hfg (hcallers.mono hle))
    have hcode : f.code = g.code := hfg.base.code_eq
    rw [Frame.entry, Frame.entry, hcode, hip]

/-! ### Limits -/

theorem entering_linked (h : p.Linked A hidden ids q) (limits : Limits) (n : Nat) :
    Progress.Linked A hidden ids (entering limits n p) (entering limits n q) := by
  cases h with
  | ended hle ho hm => exact .ended hle ho hm
  | @running ids' r r' hle h =>
    have hlength : r.callers.length = r'.callers.length := h.frames.tail.length_eq
    have hnames := h.frames.names_eq
    rw [map_cons, map_cons, cons.injEq] at hnames
    simp only [entering, hlength, hnames.1]
    split_ifs
    · exact .ended hle (.fatal (fun _ => rfl) hnames.2) h.memory
    · exact .running hle h

theorem Linked.advance_cases (h : r.Linked A hidden ids r') (hA : A.exact)
    (hoff : r.frame.code.code[r.frame.ip]? = none ↔ r'.frame.code.code[r'.frame.ip]? = none)
    (limits : Limits) :
    (∃ cause, r.advance limits = r.cutOff cause ∧ r'.advance limits = r'.cutOff cause) ∨
      ∃ n, r.advance limits = entering limits n r.proceed ∧
        r'.advance limits = entering limits n r'.proceed := by
  have hlength : r.callers.length = r'.callers.length := h.frames.tail.length_eq
  obtain ⟨B, hB, -⟩ := h.frames.exists_aligned
  have hpassed : passedLimit? limits { r with steps := r.steps + 1 } =
      passedLimit? limits { r' with steps := r'.steps + 1 } := by
    simp only [passedLimit?, h.steps_eq hA, hB.stack.length_eq]
  rw [advance_eq, advance_eq, hpassed, hlength]
  by_cases hi : r.frame.code.code[r.frame.ip]? = none
  · rw [if_pos hi, if_pos (hoff.1 hi)]
    refine .inr ⟨0, ?_, ?_⟩
    · rw [Run.proceed, hi]
      rfl
    · rw [Run.proceed, hoff.1 hi]
      rfl
  · rw [if_neg hi, if_neg (mt hoff.2 hi)]
    split
    · next cause _ => exact .inl ⟨cause, rfl, rfl⟩
    · exact .inr ⟨_, rfl, rfl⟩

end Run

end Bytewright
