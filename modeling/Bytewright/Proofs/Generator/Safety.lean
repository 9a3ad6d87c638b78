import Bytewright.Proofs.Generator.Program
import Bytewright.Proofs.Link.Reach
import Bytewright.Proofs.Link.Run
import Bytewright.Proofs.Machine.Fit

/-!
# Runs of structured programs

If no function can be reached from what a structured program is given, no call enters another frame
and no instruction breaks down.  Only limits can cut the run off.
-/

namespace Bytewright

open List

variable {K : Sharing} {hidden : ScopeRef → Bindings} {ids : Pairing} {c : Code}
  {place : Nat → Shape} {r r' : Run} {limits : Limits}

theorem LinkedAll.not_mem_function (hK : ¬K.functions) {vs ws : List Value}
    (h : LinkedAll K ids vs ws) (k : Function) : .function k ∉ vs := by
  intro hk
  induction h with
  | nil => cases hk
  | cons hv _ ih =>
    rcases mem_cons.1 hk with rfl | hk
    · cases hv with
      | function hfunctions => exact hK hfunctions
    · exact ih hk

theorem CodeOf.Sound.not_makeFunction (hsound : c.Sound place) {ip : Nat} {ins : Instruction}
    (hi : c.code[ip]? = some ins) : ins.opcode ≠ .count .makeFunction := by
  intro hop
  obtain ⟨bound, hshaped⟩ := hsound.shaped
  obtain ⟨jump, hstep, -⟩ := hshaped.step ip ins hi
  rw [hop] at hstep
  exact (hstep.exists_taken rfl (by simp)).1.elim

/-- The run has one frame, which fits the shapes of the unit, and no function can be reached from
it. -/
structure Run.Secure (c : Code) (place : Nat → Shape) (K : Sharing) (hidden : ScopeRef → Bindings)
    (r : Run) : Prop where
  callers_eq : r.callers = []
  fits : r.frame.Fits c place
  linked : ∃ ids, r.frame.Linked K ids r.frame ∧ r.memory.Linked K hidden ids r.memory

namespace Run

/-- The run goes on secure, or it ends, and is cut off by limits only. -/
def StaysSecure (c : Code) (place : Nat → Shape) (K : Sharing) (hidden : ScopeRef → Bindings) :
    Progress → Prop
  | .running r => r.Secure c place K hidden
  | .ended (.fatal cause _) _ => cause.ofLimit = true
  | .ended _ _ => True

theorem staysSecure_unwind {s : Shape} {f : Frame} {m : Memory} (hcode : f.code = c)
    (hf : s.Describes c.code place f.stack f.blocks) (hlinked : f.Linked K ids f)
    (hm : m.Linked K hidden ids m) {e : Exception} (he : e.Linked K ids e) (steps index : Nat)
    (entries : List TraceEntry) (again : Bool) :
    StaysSecure c place K hidden (unwind e steps m f [] index entries again) := by
  rw [unwind_eq]
  generalize (if again then entries else f.entry index :: entries) = traced
  obtain ⟨ids', hle, htb, hst⟩ := hm.store.newTraceback traced
  rcases optionRel_cases ((hlinked.mono hle).enterHandler? (he.mono hle) traced htb) with
    ⟨hnone, -⟩ | ⟨h, h', hh, hh', hlinked'⟩
  · simp only [hnone]
    trivial
  · rw [hh] at hh'
    cases hh'
    simp only [hh]
    exact ⟨rfl, Frame.fits_of_enterHandler? hcode hf hh, ids', hlinked', hm.withStore hle hst⟩

theorem Secure.advance (hK : ¬K.functions) (hsound : c.Sound place)
    (h : r.Secure c place K hidden) (limits : Limits) :
    StaysSecure c place K hidden (r.advance limits) := by
  obtain ⟨hcallers, hfits, ids, hlinked, hmemory⟩ := h
  obtain ⟨bound, hshaped⟩ := hsound.shaped
  have hcode := hfits.code_eq
  have hmoment : Moment.Linked (.lockstep K) hidden ids ⟨r.frame.ahead, r.memory⟩
      ⟨r.frame.ahead, r.memory⟩ :=
    ⟨{ hlinked with base := { hlinked.base with ip_eq := rfl } }, hmemory⟩
  -- what the instruction does, to shapes and to functions
  have hends {ins : Instruction} (hi : r.frame.code.code[r.frame.ip]? = some ins) :=
    Exec.ends_iff.1 (execute_ends ins r.frame r.memory (by
      obtain ⟨jump, hstep, -⟩ := hshaped.step r.frame.ip ins (hcode ▸ hi)
      exact hstep.effect_le.trans hfits.shape.length_le))
  have hexecute {ins : Instruction} (hi : r.frame.code.code[r.frame.ip]? = some ins) :=
    Exec.simulates_execute (Alignment.lockstep_matches r.frame.ip fun hop =>
      (hsound.not_makeFunction (hcode ▸ hi) hop).elim) _ _ hmoment
  rcases advance_eq_proceed limits r with hproceed | ⟨cause, active, memory, hlimit, hcut⟩
  swap
  · rw [hcut]
    exact hlimit
  rw [hproceed]
  refine proceed_cases (motive := StaysSecure c place K hidden) r (fun hoff => ?_)
    (fun ins m hdoes => ?_) (fun ins v m _ => ?_) (fun ins callee m hdoes => ?_)
    (fun ins e entries again m hdoes => ?_) (fun ins cause m hdoes => ?_) fun _ _ _ => trivial
  · have hlt := hfits.ip_lt
    rw [hcode, getElem?_eq_none_iff] at hoff
    omega
  · obtain ⟨hi, hm⟩ := hdoes
    have hresult := hexecute hi
    rw [hm] at hresult
    cases hresult with
    | ok _ _ hmm =>
      exact ⟨hcallers, ((hends hi).1 _ _ hm).fits hshaped hfits (hcode ▸ hi), _, hmm.frame,
        hmm.memory⟩
  · rw [leave, hcallers]
    trivial
  · obtain ⟨-, -, k, -, -, -, -, hk, -⟩ := (hends hdoes.1).1 _ _ hdoes.2
    exact (hlinked.stack.not_mem_function hK k (mem_of_getElem? hk)).elim
  · obtain ⟨hi, hm⟩ := hdoes
    have hresult := hexecute hi
    rw [hm] at hresult
    obtain ⟨s, hs⟩ := ((hends hi).2 _ _ hm).exists_describes hshaped hfits (hcode ▸ hi)
    cases hresult with
    | error _ hstop hmm =>
      cases hstop with
      | raise he =>
        rw [hcallers]
        refine staysSecure_unwind ?_ hs hmm.frame hmm.memory he _ _ entries again
        exact ((hends hi).2 _ _ hm).code_eq.trans hcode
  · obtain ⟨k, hk⟩ := hfits.exists_function_of_breakdown hsound (hcode ▸ hdoes.1)
      ((hends hdoes.1).2 _ _ hdoes.2)
    exact (hlinked.stack.not_mem_function hK k hk).elim

theorem Secure.go (hK : ¬K.functions) (hsound : c.Sound place) (h : r.Secure c place K hidden)
    {fuel : Nat} {cause : Fatal} {active : List String} {memory : Memory}
    (hgo : Run.go limits fuel r = some (.fatal cause active, memory)) : cause.ofLimit = true := by
  induction fuel generalizing r with
  | zero => cases hgo
  | succ fuel ih =>
    have hnext := h.advance hK hsound limits
    rw [Run.go] at hgo
    cases hr : r.advance limits with
    | running r' =>
      rw [hr] at hgo hnext
      exact ih hnext hgo
    | ended o m =>
      rw [hr] at hgo hnext
      cases hgo
      exact hnext

end Run

/-! ### Structured programs -/

/-- The values a call can reach objects through. -/
def FunctionOf.roots (k : Function) (args : List Value) (kwargs : Keywords) : List Value :=
  .space k.globals :: (k.defaults ++ k.closure ++ args ++ kwargs.map Prod.snd)

theorem Store.FunctionFree.bind {s s' : Store} {k : Function} {args : List Value}
    {kwargs : Keywords} {f : Frame} (hfree : s.FunctionFree (k.roots args kwargs))
    (hbind : k.bind args kwargs s = .ok (f, s')) :
    ∃ ids, Eq ≤ ids ∧ f.Linked (s.reached (k.roots args kwargs)) ids f ∧
      Store.Linked (s.reached (k.roots args kwargs)) s.scope ids s' s' := by
  have hroot {v : Value} (hv : v ∈ k.roots args kwargs) :
      v.Linked (s.reached (k.roots args kwargs)) Eq v :=
    hfree.linked_self v (.of_mem hv)
  have hall {vs : List Value} (hvs : ∀ v ∈ vs, v ∈ k.roots args kwargs) :
      LinkedAll (s.reached (k.roots args kwargs)) Eq vs vs :=
    forall₂_same.2 fun v hv => hroot (hvs v hv)
  have halike : k.Alike (s.reached (k.roots args kwargs)) Eq k :=
    { code_eq := rfl
      defaults := hall fun v hv => by simp [FunctionOf.roots, hv]
      globals_eq := rfl
      globals_shared := .inl (.of_mem (mem_cons_self ..))
      closure := hall fun v hv => by simp [FunctionOf.roots, hv] }
  have hargs : LinkedAll (s.reached (k.roots args kwargs)) Eq args args :=
    hall fun v hv => by simp [FunctionOf.roots, hv]
  have hkwargs : List.Forall₂ (LinkedNamed (s.reached (k.roots args kwargs)) Eq) kwargs kwargs := by
    refine forall₂_same.2 fun p hp => ⟨rfl, hroot ?_⟩
    have hmem : p.2 ∈ kwargs.map Prod.snd := mem_map_of_mem hp
    simp only [FunctionOf.roots, mem_cons, mem_append, hmem, or_true]
  rcases FunctionOf.bind_linked hfree.store_linked_self halike hargs hkwargs with
    ⟨p, q, hp, hq, ids, hle, hframe, hst⟩ | ⟨e, e', he, -, -⟩ | ⟨cause, hcause, -⟩
  · rw [hbind] at hp hq
    cases hp
    cases hq
    exact ⟨ids, hle, hframe, hst⟩
  · rw [hbind] at he
    cases he
  · rw [hbind] at hcause
    cases hcause

/-- Structured programs are assembled, whatever is nested in what.  Called with arguments, and in
globals, from which no function can be reached, their units are never cut off but at a limit of the
machine, whatever exceptions are raised on the way. -/
theorem Program.toCode_runs_safely (p : Program) (available : Option (List String))
    {header : Header} (fileName : String) (labels : Labels) (hsize : p.size + 2 < 4294967296)
    (hargs : header.args.Nodup) (hvarArgs : header.varArgs = false)
    (hvarKeywords : header.varKeywords = false) (hmax : header.maxStackSize = none) :
    ∃ g code, p.emitUnit available { fileName, labels } = .ok () g ∧
      g.toCode header = .ok code ∧
      ∀ (m : Machine) (fuel : Nat) (k : Function) (args : List Value)
        (kwargs : Keywords), k.code = code →
        m.memory.store.FunctionFree (k.roots args kwargs) →
        ∀ cause active memory,
          m.callResult fuel (.function k) args kwargs = some (.fatal cause active, memory) →
          cause.ofLimit = true := by
  obtain ⟨g, code, hg, hcode, place, hsound⟩ :=
    p.exists_toCode available fileName labels hsize hargs hvarArgs hvarKeywords hmax
  refine ⟨g, code, hg, hcode, fun m fuel k args kwargs hk hfree cause active memory hcall => ?_⟩
  unfold Machine.callResult at hcall
  cases hbind : k.bind args kwargs m.memory.store with
  | ok bound =>
    obtain ⟨frame, store⟩ := bound
    simp only [hbind] at hcall
    split_ifs at hcall
    · cases hcall
      rfl
    · obtain ⟨ids, -, hframe, hst⟩ := hfree.bind hbind
      have hlog : List.Forall₂ (Event.Linked (m.memory.store.reached (k.roots args kwargs)) ids)
          m.memory.log m.memory.log := List.forall₂_same.2 fun _ _ => .inl rfl
      have hsecure : Run.Secure code place (m.memory.store.reached (k.roots args kwargs))
          m.memory.store.scope { frame, memory := { m.memory with store } } :=
        ⟨rfl, Frame.fits_of_bind hsound hk hbind, ids, hframe, hst, fun _ => hlog⟩
      exact hsecure.go id hsound hcall
  | error stop =>
    simp only [hbind] at hcall
    cases stop with
    | inl failure => cases hcall
    | inr cause' =>
      -- a sound unit has a local for each argument
      have hslots := hsound.slots
      unfold FunctionOf.bind at hbind
      rw [hk, if_neg (Nat.not_lt.2 hslots)] at hbind
      split at hbind <;> cases hbind

/-- The block of a text that parses. -/
def Program.suite (text : String) (h : (parseStatements text).toOption.isSome = true) : Program :=
  match hparse : parseStatements text with
  | .ok suite => .block text suite hparse
  | .error _ => absurd h (by simp [hparse, Except.toOption])

def quotients : Program :=
  .loop "xs" true .storeName "x" (.inl rfl) (.squash (.suite "n = n / x\n" (by decide +kernel)))

def quotientsMachine : Machine where
  memory := { store := { scopes := #[[("n", .int 1)]], lists := #[[.int 2, .int 0]] } }

def quotientsFunction (code : Code) : Function where
  id := 0
  code := code
  defaults := []
  globals := ⟨0⟩
  closure := []

theorem functionFree_quotients (code : Code) :
    quotientsMachine.memory.store.FunctionFree
      ((quotientsFunction code).roots [.list ⟨0⟩] []) := by
  refine Store.FunctionFree.of_closed
    (fun v => v = .space ⟨0⟩ ∨ v = .list ⟨0⟩ ∨ ∃ n, v = .int n) ?_ ?_ ?_
  · intro v hv
    have hv' : v ∈ [Value.space ⟨0⟩, .list ⟨0⟩] := hv
    rcases mem_pair.1 hv' with rfl | rfl
    · exact .inl rfl
    · exact .inr (.inl rfl)
  · rintro v (rfl | rfl | ⟨n, rfl⟩) w hw
    · have hw' : w ∈ [Value.int 1] := hw
      exact .inr (.inr ⟨1, mem_singleton.1 hw'⟩)
    · have hw' : w ∈ [Value.int 2, .int 0] := hw
      rcases mem_pair.1 hw' with rfl | rfl
      · exact .inr (.inr ⟨2, rfl⟩)
      · exact .inr (.inr ⟨0, rfl⟩)
    · cases hw
  · rintro f (h | h | ⟨n, h⟩) <;> cases h

/-- The loop is assembled, and called with the list it is never cut off but at a limit. -/
theorem quotients_runs_safely :
    ∃ g code, quotients.emitUnit none { fileName := "quotients" } = .ok () g ∧
      g.toCode { name := "quotients", args := ["xs"] } = .ok code ∧
      ∀ fuel cause active memory,
        quotientsMachine.callResult fuel (.function (quotientsFunction code)) [.list ⟨0⟩] [] =
          some (.fatal cause active, memory) → cause.ofLimit = true := by
  have hargs : ({ name := "quotients", args := ["xs"] } : Header).args.Nodup := by decide
  obtain ⟨g, code, hg, hcode, hsafe⟩ := Program.toCode_runs_safely quotients none "quotients" {}
    (by decide +kernel) hargs rfl rfl rfl
  exact ⟨g, code, hg, hcode, fun fuel => hsafe quotientsMachine fuel (quotientsFunction code)
    [.list ⟨0⟩] [] rfl (functionFree_quotients code)⟩

end Bytewright
