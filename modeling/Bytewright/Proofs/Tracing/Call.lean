import Bytewright.Proofs.Machine.Handler
import Bytewright.Proofs.Tracing.Run

/-!
# Calls of traced units

A traced unit takes its tracer in front of the other arguments.  A call that is refused is refused
with the same exception, in which only the numbers of arguments differ.
-/

namespace Bytewright

open Assemble List

/-! ### One more parameter -/

structure CodeOf.Prepends (x : String) (c t : Code) : Prop where
  argCount_eq : t.argCount.toNat = c.argCount.toNat + 1
  varNames_eq : t.varNames = x :: c.varNames
  takesRest_eq : t.takesRest = c.takesRest
  takesExtra_eq : t.takesExtra = c.takesExtra
  newLocals_eq : t.flags.contains .newLocals = c.flags.contains .newLocals
  name_eq : t.name = c.name
  slots_le : c.argumentSlots ≤ c.varNames.length

theorem alignDefaults_succ {n : Nat} {defaults : List Value} (h : defaults.length ≤ n) :
    alignDefaults (n + 1) defaults = none :: alignDefaults n defaults := by
  rw [alignDefaults, alignDefaults, Nat.succ_sub h, replicate_succ, cons_append,
    take_of_length_le h, take_of_length_le (h.trans n.le_succ)]

theorem bindDefaults_congr {c t : Code} (h : t.name = c.name) (params : List String)
    (slots defaults : List (Option Value)) :
    bindDefaults t params slots defaults = bindDefaults c params slots defaults := by
  induction params generalizing slots defaults with
  | nil => simp only [bindDefaults]
  | cons x params ih =>
    cases slots with
    | nil => simp only [bindDefaults]
    | cons slot slots =>
      cases defaults with
      | nil => simp only [bindDefaults]
      | cons default defaults => simp only [bindDefaults, ih, h]

namespace CodeOf.Prepends

variable {x : String} {c t : Code} {v : Value} {defaults args : List Value}
  {kwargs : Keywords} {k : Function} {s : Store}

variable (h : Prepends x c t)
include h

theorem params_eq : t.params = x :: c.params := by
  rw [CodeOf.params, CodeOf.params, h.argCount_eq, h.varNames_eq, take_succ_cons]

theorem argumentSlots_eq : t.argumentSlots = c.argumentSlots + 1 := by
  rw [CodeOf.argumentSlots, CodeOf.argumentSlots, h.argCount_eq, h.takesRest_eq, h.takesExtra_eq]
  omega

theorem bindKeywords_cons (hkwargs : ∀ p ∈ kwargs, p.1 ≠ x) (v : Value)
    (slots : List (Option Value)) (extra : Keywords) :
    bindKeywords t kwargs (some v :: slots) extra =
      (bindKeywords c kwargs slots extra).map fun r => (some v :: r.1, r.2) := by
  induction kwargs generalizing slots extra with
  | nil => rfl
  | cons p kwargs ih =>
    obtain ⟨key, w⟩ := p
    have hkey : (x == key) = false := beq_false_of_ne (Ne.symm (hkwargs _ mem_cons_self))
    have ih := ih fun p hp => hkwargs p (mem_cons_of_mem _ hp)
    rw [bindKeywords, bindKeywords, h.params_eq, findIdx?_cons, hkey]
    cases c.params.findIdx? (· == key) with
    | none =>
      simp only [Bool.false_eq_true, if_false, Option.map_none, h.takesExtra_eq, h.name_eq]
      split_ifs
      · exact ih slots _
      · rfl
    | some i =>
      simp only [Bool.false_eq_true, if_false, Option.map_some, getElem?_cons_succ,
        set_cons_succ, h.name_eq]
      split
      · rfl
      · exact ih _ extra

theorem bindArguments_cons (hkwargs : ∀ p ∈ kwargs, p.1 ≠ x)
    (hdefaults : defaults.length ≤ c.argCount.toNat)
    (hargs : ¬(c.argCount.toNat < args.length ∧ c.takesRest = false)) (v : Value) :
    bindArguments t defaults (v :: args) kwargs =
      (bindArguments c defaults args kwargs).map fun b => { b with params := v :: b.params } := by
  have hfew : ¬(c.argCount.toNat < args.length ∧ (!c.takesRest) = true) := by
    rwa [Bool.not_eq_true']
  have hfew' : ¬(c.argCount.toNat + 1 < args.length + 1 ∧ (!c.takesRest) = true) := by
    rwa [Nat.add_lt_add_iff_right]
  unfold bindArguments
  simp only [h.argCount_eq, h.takesRest_eq, if_neg hfew, if_neg hfew', take_succ_cons,
    map_cons, cons_append, length_cons, Nat.add_sub_add_right, drop_succ_cons,
    h.bindKeywords_cons hkwargs, h.params_eq, alignDefaults_succ hdefaults]
  cases bindKeywords c kwargs _ [] with
  | error e => rfl
  | ok r =>
    simp only [Except.map, Bind.bind, Except.bind, bindDefaults, Option.some_or,
      bindDefaults_congr h.name_eq]
    cases bindDefaults c c.params r.1 (alignDefaults c.argCount.toNat defaults) <;> rfl

theorem frame_cons (v : Value) (b : Binding) (s : Store) :
    FunctionOf.frame { k with code := t } { b with params := v :: b.params } s =
      ({ (FunctionOf.frame { k with code := c } b s).1 with
          code := t
          fast := some v :: (FunctionOf.frame { k with code := c } b s).1.fast },
        (FunctionOf.frame { k with code := c } b s).2) := by
  unfold FunctionOf.frame
  simp only [h.takesRest_eq, h.takesExtra_eq, h.newLocals_eq, h.varNames_eq, map_cons,
    cons_append, length_cons]
  split_ifs <;> simp only [cons_append, length_cons, Nat.add_sub_add_right]

theorem bind (hkwargs : ∀ p ∈ kwargs, p.1 ≠ x) (hdefaults : k.defaults.length ≤ c.argCount.toNat)
    (hargs : ¬(c.argCount.toNat < args.length ∧ c.takesRest = false)) (v : Value) (s : Store) :
    FunctionOf.bind { k with code := t } (v :: args) kwargs s =
      (FunctionOf.bind { k with code := c } args kwargs s).map fun p =>
        ({ p.1 with code := t, fast := some v :: p.1.fast }, p.2) := by
  have hslots : ¬c.varNames.length < c.argumentSlots := Nat.not_lt.2 h.slots_le
  have hslots' : ¬t.varNames.length < t.argumentSlots := by
    rwa [h.varNames_eq, h.argumentSlots_eq, length_cons, Nat.add_lt_add_iff_right]
  simp only [FunctionOf.bind, if_neg hslots, if_neg hslots',
    h.bindArguments_cons hkwargs hdefaults hargs]
  cases bindArguments c k.defaults args kwargs with
  | error e => rfl
  | ok b => exact congrArg Except.ok (h.frame_cons v b s)

theorem bind_of_surplus
    (hargs : c.argCount.toNat < args.length ∧ c.takesRest = false) (v : Value) (s : Store) :
    FunctionOf.bind { k with code := c } args kwargs s =
        .error (.inl (.tooManyArguments c.name c.argCount.toNat args.length)) ∧
      FunctionOf.bind { k with code := t } (v :: args) kwargs s =
        .error (.inl (.tooManyArguments c.name (c.argCount.toNat + 1) (args.length + 1))) := by
  have hslots : ¬c.varNames.length < c.argumentSlots := Nat.not_lt.2 h.slots_le
  have hslots' : ¬t.varNames.length < t.argumentSlots := by
    rwa [h.varNames_eq, h.argumentSlots_eq, length_cons, Nat.add_lt_add_iff_right]
  have hmany : c.argCount.toNat < args.length ∧ (!c.takesRest) = true := by
    rwa [Bool.not_eq_true']
  have hmany' : c.argCount.toNat + 1 < args.length + 1 ∧ (!c.takesRest) = true := by
    rwa [Nat.add_lt_add_iff_right]
  constructor
  · simp only [FunctionOf.bind, if_neg hslots, bindArguments, if_pos hmany]
  · simp only [FunctionOf.bind, if_neg hslots', bindArguments, h.argCount_eq, h.takesRest_eq,
      h.name_eq, length_cons, if_pos hmany']

end CodeOf.Prepends

theorem Assembled.parameters_of_append {fileName fileName' : String} {ops ops' : Stream}
    {header : Header} {c t : Code} {slots : List String} (h : Assembled fileName ops header c)
    (h' : Assembled fileName' ops' { header with args := slots ++ header.args } t)
    (ht : t.Addressable)
    (hparams : header.varArgs.toNat + header.varKeywords.toNat ≤ header.args.length) :
    t.argCount.toNat = c.argCount.toNat + slots.length ∧ t.takesRest = c.takesRest ∧
      t.takesExtra = c.takesExtra ∧
      t.flags.contains .newLocals = c.flags.contains .newLocals ∧ t.name = c.name ∧
      c.argumentSlots ≤ c.varNames.length := by
  obtain ⟨hrest, hextra, hnew⟩ := contains_flags ops header c.freeVars
  obtain ⟨hrest', hextra', hnew'⟩ :=
    contains_flags ops' { header with args := slots ++ header.args } t.freeVars
  rw [← h.flags_eq] at hrest hextra hnew
  rw [← h'.flags_eq] at hrest' hextra' hnew'
  have hle : header.args.length ≤ c.varNames.length := h.args_prefix.length_le
  have hlt : slots.length + header.args.length < 4294967296 := by
    rw [← length_append]
    exact h'.args_prefix.length_le.trans_lt (ht.names .locals)
  have hcount : c.argCount.toNat = argCount header := by
    rw [h.argCount_eq, argCount]
    exact UInt32.toNat_ofNat_of_lt' (show _ < 4294967296 by omega)
  have hcount' : t.argCount.toNat = argCount header + slots.length := by
    rw [h'.argCount_eq, argCount, argCount, length_append, Nat.add_sub_assoc hparams, Nat.add_comm]
    exact UInt32.toNat_ofNat_of_lt' (show _ < 4294967296 by omega)
  refine ⟨by rw [hcount, hcount'], hrest'.trans hrest.symm, hextra'.trans hextra.symm,
    hnew'.trans hnew.symm, h'.name_eq.trans h.name_eq.symm, ?_⟩
  rw [CodeOf.argumentSlots, CodeOf.takesRest, CodeOf.takesExtra, hrest, hextra, hcount, argCount]
  omega

/-! ### Calls that find their arguments -/

/-- Calls of the outermost frame find their operands on the stack. -/
def Machine.Supplies (m : Machine) (k : Function) (args : List Value)
    (kwargs : Keywords) : Prop :=
  ∀ frame store, k.bind args kwargs m.memory.store = .ok (frame, store) →
    ∀ r, Run.Proceeds { frame, memory := { m.memory with store } } r → r.callers = [] →
      Tracing.Supplied r.frame

variable {f : Frame} {seen : Depth.Record} {deepest : Int} {failure : Failure} {fuel : Nat}
  {o : Outcome} {n : Memory}

theorem Frame.Matches.supplied {code : List Instruction} (hf : f.Matches code seen)
    (hs : Depth.Survey code seen deepest []) : Tracing.Supplied f := by
  intro i hi hcall
  rw [hf.code_eq] at hi
  obtain ⟨blocks, hv, -⟩ := hf.visited hs hi
  have hpops := hv.pops_le
  rw [hcall] at hpops
  simp only [Opcode.effect, Frame.depths] at hpops
  omega

theorem Machine.supplies_of_sheltered {m : Machine} {k : Function} {args : List Value}
    {kwargs : Keywords} (hsurvey : Depth.survey k.code.code 0 = .ok (seen, deepest))
    (hsheltered : Depth.sheltered k.code.code seen = true) : m.Supplies k args kwargs := by
  intro frame store hbind r hr
  obtain ⟨hs, hstart⟩ := Depth.survey_closed hsurvey
  have hcarries := Frame.carries_sheltered hs hstart hsheltered
  have hholds : r.Holds k.code.code (Frame.Sheltered k.code.code seen)
      (Frame.WaitsSheltered k.code.code seen) := by
    induction hr with
    | refl => exact ⟨fun hcode => hcarries.fresh hbind hcode, by simp⟩
    | tail _ hnext ih =>
      exact ih.proceed hcarries (fun _ => Frame.handles_sheltered hs hsheltered) hnext
  intro hcallers
  have hbase := Run.base_of_proceeds hr
  rw [Run.base, hcallers] at hbase
  have hcode : r.frame.code = k.code := hbase.trans (FunctionOf.bind_eq_ok hbind).1
  exact (hholds.frame (by rw [hcode])).toMatches.supplied hs

namespace Tracing

variable {fileName : String} {ops : Stream} {header : Header} {c t : Code} {tracer : Hook}

theorem Twins.prepends (h : Twins fileName ops header c t)
    (hparams : header.varArgs.toNat + header.varKeywords.toNat ≤ header.args.length) :
    CodeOf.Prepends slot c t := by
  have htraced : Assembled fileName (Tracing.traced ops)
      { header with args := [slot] ++ header.args } t := h.traced
  obtain ⟨hcount, hrest, hextra, hnew, hname, hslots⟩ :=
    h.plain.parameters_of_append htraced h.addressable hparams
  exact ⟨hcount, h.varNames_eq, hrest, hextra, hnew, hname, hslots⟩

end Tracing

/-! ### Calls -/

def Machine.refusal (m : Machine) (failure : Failure) : Outcome × Memory :=
  (.raised (m.memory.store.failed failure).1 [],
    { m.memory with store := (m.memory.store.failed failure).2 })

theorem Machine.callResult_of_refusal {m : Machine} {g : Function} {args : List Value}
    {kwargs : Keywords} (h : g.bind args kwargs m.memory.store = .error (.inl failure))
    (fuel : Nat) : m.callResult fuel (.function g) args kwargs = some (m.refusal failure) := by
  simp only [callResult, h, refusal]

theorem FunctionOf.bind_linked_self (exact logs : Prop) {s : Store} (hs : s.closed = true)
    {k : Function} {args : List Value} {kwargs : Keywords}
    (hwithin : ∀ v ∈ .function k :: args ++ kwargs.map Prod.snd, v.within s = true) :
    (∀ p, k.bind args kwargs s = .ok p →
        Store.LinkedWith (.whole (fun _ => True) exact logs) (fun _ => [])
          (fun a b => a = b ∧ a < s.nextId)
          (Frame.Linked (.whole (fun _ => True) exact logs)) p p) ∧
      ∀ e, k.bind args kwargs s = .error (.inl e) →
        e.Linked (.whole (fun _ => True) exact logs) (fun a b => a = b ∧ a < s.nextId) e := by
  let ids : Pairing := fun a b => a = b ∧ a < s.nextId
  have hself (v : Value) (hv : v ∈ .function k :: args ++ kwargs.map Prod.snd) :
      v.Linked (.whole (fun _ => True) exact logs) ids v :=
    Value.linked_self (fun _ _ => trivial) (fun i hi => ⟨rfl, hi⟩) v (hwithin v hv)
  have hargs : LinkedAll (.whole (fun _ => True) exact logs) ids args args :=
    forall₂_same.2 fun v hv => hself v (by simp [hv])
  have hkwargs : List.Forall₂ (LinkedNamed (.whole (fun _ => True) exact logs) ids) kwargs kwargs :=
    forall₂_same.2 fun p hp =>
      ⟨rfl, hself p.2 (mem_append_right _ (mem_map_of_mem hp))⟩
  rcases FunctionOf.bind_linked (Store.linked_self hs (fun _ => []))
      (hself (.function k) (by simp)).alike hargs hkwargs with
    ⟨p, q, hp, hq, hpq⟩ | ⟨e, e', he, he', hee'⟩ | ⟨cause, hcause, -⟩
  · obtain rfl : p = q := Except.ok.inj (hp.symm.trans hq)
    refine ⟨fun p' hp' => ?_, fun e he => ?_⟩
    · rw [hp] at hp'
      cases hp'
      exact hpq
    · rw [hp] at he
      cases he
  · refine ⟨fun p hp => ?_, fun e₁ he₁ => ?_⟩
    · rw [he] at hp
      cases hp
    · rw [he] at he' he₁
      cases he'
      cases he₁
      exact hee'
  · refine ⟨fun p hp => ?_, fun e he => ?_⟩
    · rw [hcause] at hp
      cases hp
    · rw [hcause] at he
      cases he

namespace Tracing

variable {fileName : String} {ops : Stream} {header : Header} {c t : Code} {tracer : Hook}
  {m : Machine} {k : Function} {args : List Value} {kwargs : Keywords}

theorem Twins.exists_trio (h : Twins fileName ops header c t) (tracer : Hook)
    (hm : m.memory.store.closed = true)
    (hwithin : ∀ v ∈ .function { k with code := c } :: args ++ kwargs.map Prod.snd,
      v.within m.memory.store = true) {s : Store}
    (hbind : FunctionOf.bind { k with code := c } args kwargs m.memory.store = .ok (f, s)) :
    ∃ ids : Pairing, (∀ i < m.memory.store.nextId, ids i i) ∧
      Trio h tracer ids ⟨f, [], 0, { m.memory with store := s }⟩
        ⟨f, [], 0, { m.memory with store := s }⟩
        ⟨{ f with code := t, fast := some (.hook tracer) :: f.fast }, [], 0,
          { m.memory with store := s }⟩ := by
  obtain ⟨hcode, hstack, hblocks, hhandled, hip⟩ := FunctionOf.bind_eq_ok hbind
  obtain ⟨idsw, -, hframe, hstore⟩ :=
    (FunctionOf.bind_linked_self True False hm hwithin).1 _ hbind
  obtain ⟨ids, hle, hframe', hstore'⟩ :=
    (FunctionOf.bind_linked_self False True hm hwithin).1 _ hbind
  have haligned : f.Aligned (h.shift tracer).alignment ids
      { f with code := t, fast := some (.hook tracer) :: f.fast } :=
    { base :=
        { plain := hcode
          shifted := rfl
          ip_le := hip.le.trans (Nat.zero_le _)
          ip_eq := by
            show f.ip = place ops f.ip
            rw [hip]
            rfl
          names_eq := rfl
          fast := ⟨f.fast, rfl, hframe'.base.fast⟩
          closure := hframe'.base.closure }
      stack := hframe'.stack
      blocks := hblocks ▸ .nil
      handled := hframe'.handled
      globals_eq := rfl
      globals_shared := trivial }
  refine ⟨ids, fun i hi => hle _ _ ⟨rfl, hi⟩,
    ⟨idsw, .bottom hframe, ⟨hstore, False.elim⟩, fun _ => rfl⟩,
    ⟨.bottom haligned, ⟨hstore', fun _ => ?_⟩, False.elim⟩, hcode, rfl⟩
  exact forall₂_same.2 fun _ _ => .inl rfl

/-- The calls end alike, up to identities, or are refused alike, up to the numbers of arguments. -/
inductive Agrees (m : Machine) (c : Code) (args : List Value) :
    Outcome × Memory → Outcome × Memory → Prop
  | linked {ids : Pairing} {o o' : Outcome} {n n' : Memory}
      (hids : ∀ i < m.memory.store.nextId, ids i i) (ho : o.Linked .renamed False ids o')
      (hn : n.Linked .renamed (fun _ => []) ids n') : Agrees m c args (o, n) (o', n')
  | surplus (hargs : c.argCount.toNat < args.length) (hrest : c.takesRest = false) :
      Agrees m c args (m.refusal (.tooManyArguments c.name c.argCount.toNat args.length))
        (m.refusal (.tooManyArguments c.name (c.argCount.toNat + 1) (args.length + 1)))

theorem agrees_refusal (hm : m.memory.store.closed = true)
    (hwithin : ∀ v ∈ .function k :: args ++ kwargs.map Prod.snd, v.within m.memory.store = true)
    {e : Failure} (hbind : k.bind args kwargs m.memory.store = .error (.inl e)) :
    Agrees m c args (m.refusal e) (m.refusal e) := by
  have he := (FunctionOf.bind_linked_self False True hm hwithin).2 e hbind
  obtain ⟨ids, hle, hexception, hstore⟩ := (Store.linked_self hm _).failed he
  exact .linked (fun i hi => hle _ _ ⟨rfl, hi⟩) (.raised hexception [])
    ⟨hstore, fun _ => forall₂_same.2 fun _ _ => .inl rfl⟩

theorem agrees_fatal (hm : m.memory.store.closed = true) (cause : Fatal) :
    Agrees m c args (.fatal cause [], m.memory) (.fatal cause [], m.memory) :=
  .linked (fun _ hi => ⟨rfl, hi⟩) (.fatal False.elim rfl)
    ⟨Store.linked_self hm _, fun _ => forall₂_same.2 fun _ _ => .inl rfl⟩

theorem Twins.exists_agrees (h : Twins fileName ops header c t) (htracer : Calm tracer)
    (hm : m.memory.store.closed = true)
    (hwithin : ∀ v ∈ .function { k with code := c } :: args ++ kwargs.map Prod.snd,
      v.within m.memory.store = true) (hsupplies : m.Supplies { k with code := c } args kwargs)
    {s : Store}
    (hbind : FunctionOf.bind { k with code := c } args kwargs m.memory.store = .ok (f, s))
    (hgo : Run.go m.limits fuel { frame := f, memory := { m.memory with store := s } } =
      some (o, n))
    (hlimit : ¬o.AtLimit) :
    ∃ log, Run.watch tracer fuel { frame := f, memory := { m.memory with store := s } } =
        some (o, { n with log }) ∧
      ∃ fuel' o' n', Run.go m.limits fuel'
          { frame := { f with code := t, fast := some (.hook tracer) :: f.fast }
            memory := { m.memory with store := s } } = some (o', n') ∧
        (o'.AtLimit ∨ Agrees m c args (o, { n with log }) (o', n')) := by
  obtain ⟨ids, hids, htrio⟩ := h.exists_trio tracer hm hwithin hbind
  obtain ⟨log, hwatch, ids', o', n', hle, hfinishes, ho, hn⟩ :=
    htrio.exists_finishes htracer (hsupplies f s hbind) hgo hlimit
  obtain ⟨fuel', o₁, n₁, hgo', hor⟩ := hfinishes.exists_go m.limits
  refine ⟨log, hwatch, fuel', o₁, n₁, hgo', hor.imp_right ?_⟩
  rintro ⟨rfl, rfl⟩
  exact .linked (fun i hi => hle _ _ (hids i hi)) ho hn

end Tracing

open Tracing in
/-- Tracing is transparent and complete.  A stream that does not use the fast local of the tracer,
and whose nested units have locals of their own, can be traced.  If the traced stream is assembled
with the tracer as its first parameter, then a call with a tracer whose methods succeed ends as the
call of the unit that is not traced, with the same traceback and the same memory up to identities;
only the numbers in the text of an exception for too many arguments count the tracer.  The log is
that of the untraced call, watched: each attribute that the frame of the function loads, each call,
subscription and iteration, and its return, with the operands in their order, also if the
instruction then raises. -/
theorem tracing_is_transparent {fileName : String} {ops : Stream} {header : Header} {c : Code}
    (hslot : ∀ op ∈ ops, touches op = false)
    (hcodes : ∀ unit, .const (.code unit) ∈ ops → unit.flags.contains .newLocals = true)
    (hparams : header.varArgs.toNat + header.varKeywords.toNat ≤ header.args.length)
    (hc : assemble fileName ops header = .ok c) :
    ∃ traced, injectTracing ops false = .ok traced ∧
      ∀ t, assemble fileName traced { header with args := slot :: header.args } = .ok t →
        t.Addressable → ∀ (m : Machine) (tracer : Hook) (k : Function) (args : List Value)
          (kwargs : Keywords), Calm tracer →
        k.defaults.length ≤ c.argCount.toNat → (∀ p ∈ kwargs, p.1 ≠ slot) →
        m.memory.store.closed = true →
        (∀ v ∈ .function { k with code := c } :: args ++ kwargs.map Prod.snd,
          v.within m.memory.store = true) →
        m.Supplies { k with code := c } args kwargs →
        ∀ fuel o n, m.callResult fuel (.function { k with code := c }) args kwargs = some (o, n) →
          ¬o.AtLimit →
          ∃ log, m.watchResult fuel tracer { k with code := c } args kwargs =
              some (o, { n with log }) ∧
            ∃ fuel' o' n', m.callResult fuel' (.function { k with code := t })
                (.hook tracer :: args) kwargs = some (o', n') ∧
              (o'.AtLimit ∨ Agrees m c args (o, { n with log }) (o', n')) := by
  refine ⟨_, injectTracing_eq hcodes, fun t ht haddressable m tracer k args kwargs htracer hdefaults
    hkwargs hm hwithin hsupplies fuel o n hcall hlimit => ?_⟩
  have h : Twins fileName ops header c t :=
    ⟨assemble_eq_ok_iff.1 hc, assemble_eq_ok_iff.1 ht, hslot, haddressable⟩
  have hprepends := h.prepends hparams
  simp only [Machine.callResult] at hcall
  simp only [Machine.callResult, Machine.watchResult]
  by_cases hargs : c.argCount.toNat < args.length ∧ c.takesRest = false
  · obtain ⟨hbind, hbind'⟩ := hprepends.bind_of_surplus hargs (.hook tracer) m.memory.store
    rw [hbind] at hcall ⊢
    rw [hbind']
    cases hcall
    exact ⟨_, rfl, 0, _, _, rfl, .inr (.surplus hargs.1 hargs.2)⟩
  · have hbind' := hprepends.bind hkwargs hdefaults hargs (.hook tracer) m.memory.store
    rw [hbind']
    cases hbind : FunctionOf.bind { k with code := c } args kwargs m.memory.store with
    | error e =>
      rw [hbind] at hcall
      cases e with
      | inl failure =>
        cases hcall
        exact ⟨_, rfl, 0, _, _, rfl, .inr (agrees_refusal hm hwithin hbind)⟩
      | inr cause =>
        cases hcall
        exact ⟨_, rfl, 0, _, _, rfl, .inr (agrees_fatal hm cause)⟩
    | ok p =>
      obtain ⟨f, s⟩ := p
      rw [hbind] at hcall
      by_cases hdepth : m.limits.callDepth = 0
      · simp only [if_pos hdepth] at hcall
        cases hcall
        exact absurd rfl hlimit
      · simp only [if_neg hdepth] at hcall
        obtain ⟨log, hwatch, fuel', o', n', hgo, hor⟩ :=
          h.exists_agrees htracer hm hwithin hsupplies hbind hcall hlimit
        exact ⟨log, hwatch, fuel', o', n', (if_neg hdepth).trans hgo, hor⟩

/-! ### What a traced call shows -/

section Examples

open Tracing

def firstItem : Stream :=
  [.line 1, .name .loadFast "xs", .const (.int 0), .bare .binarySubscr, .bare .returnValue]

def firstItemUnit : Code where
  argCount := 1
  numLocals := 1
  stackSize := 2
  flags := ⟨0x41⟩
  code := [⟨.name .loadFast, 0⟩, ⟨.loadConst, 0⟩, ⟨.bare .binarySubscr, 0⟩, ⟨.bare .returnValue, 0⟩]
  varNames := ["xs"]
  fileName := "items"
  name := "first"
  firstLine := 0
  lines := [(0, 1)]
  consts := [.int 0]

def firstItemTraced : Code :=
  { firstItemUnit with
    argCount := 2
    numLocals := 2
    stackSize := 5
    code := [⟨.name .loadFast, 1⟩, ⟨.loadConst, 0⟩, ⟨.bare .dupTopTwo, 0⟩, ⟨.name .loadFast, 0⟩,
      ⟨.name .loadAttr, 0⟩, ⟨.bare .rotThree, 0⟩, ⟨.call .callFunction, 2⟩, ⟨.bare .popTop, 0⟩,
      ⟨.bare .binarySubscr, 0⟩, ⟨.bare .dupTop, 0⟩, ⟨.name .loadFast, 0⟩, ⟨.name .loadAttr, 1⟩,
      ⟨.bare .rotTwo, 0⟩, ⟨.call .callFunction, 1⟩, ⟨.bare .popTop, 0⟩, ⟨.bare .returnValue, 0⟩]
    names := ["binary_subscr", "return_value"]
    varNames := [slot, "xs"] }

def recordingTracer : Hook := ⟨1, .tracer, true, fun _ => .accept⟩

def oneItemMachine : Machine where
  memory := { store := { lists := #[[.int 7]], scopes := #[[]], nextId := 2 } }

theorem firstItem_twins :
    Twins "items" firstItem { name := "first", args := ["xs"] } firstItemUnit firstItemTraced where
  plain := assemble_eq_ok_iff.1 (by cbv)
  traced := assemble_eq_ok_iff.1 (by cbv)
  untouched := by decide
  addressable := ⟨by decide, by decide, fun pool => by cases pool <;> decide⟩

/-- The first item of a list is found, and the traced call finds it too; watched, the untraced call
writes the subscription and the return into the log. -/
theorem firstItem_is_transparent :
    ∃ log, oneItemMachine.watchResult 4 recordingTracer ⟨0, firstItemUnit, [], ⟨0⟩, []⟩ [.list ⟨0⟩]
          [] = some (.value (.int 7), { oneItemMachine.memory with log }) ∧
      log.map (·.call) = [.returnValue, .binarySubscr] ∧
      ∃ fuel o n, oneItemMachine.callResult fuel (.function ⟨0, firstItemTraced, [], ⟨0⟩, []⟩)
          [.hook recordingTracer, .list ⟨0⟩] [] = some (o, n) ∧
        (o.AtLimit ∨ Agrees oneItemMachine firstItemUnit [.list ⟨0⟩]
          (.value (.int 7), { oneItemMachine.memory with log }) (o, n)) := by
  have hunit : assemble "items" firstItem { name := "first", args := ["xs"] } = .ok firstItemUnit :=
    assemble_eq_ok_iff.2 firstItem_twins.plain
  have htraced : assemble "items" (traced firstItem) { name := "first", args := [slot, "xs"] } =
      .ok firstItemTraced := assemble_eq_ok_iff.2 firstItem_twins.traced
  have hcodes : ∀ unit, .const (.code unit) ∈ firstItem →
      unit.flags.contains .newLocals = true := by
    simp [firstItem]
  obtain ⟨ops, hops, htransparent⟩ :=
    tracing_is_transparent firstItem_twins.untouched hcodes (by decide) hunit
  obtain rfl : traced firstItem = ops := Except.ok.inj ((injectTracing_eq hcodes).symm.trans hops)
  have hsurvey : Depth.survey firstItemUnit.code 0 =
      .ok ([some ⟨0, []⟩, some ⟨1, []⟩, some ⟨2, []⟩, some ⟨1, []⟩], 2) := by cbv
  have hsupplies : oneItemMachine.Supplies ⟨0, firstItemUnit, [], ⟨0⟩, []⟩ [.list ⟨0⟩] [] :=
    Machine.supplies_of_sheltered hsurvey (by decide)
  have hwithin : ∀ v ∈ .function ⟨0, firstItemUnit, [], ⟨0⟩, []⟩ :: [.list ⟨0⟩] ++
      ([] : Keywords).map Prod.snd, v.within oneItemMachine.memory.store = true := by
    simp [Value.within, withinAll, oneItemMachine]
  obtain ⟨log, hwatch, hagrees⟩ := htransparent firstItemTraced htraced firstItem_twins.addressable
    oneItemMachine recordingTracer ⟨0, firstItemUnit, [], ⟨0⟩, []⟩ [.list ⟨0⟩] [] ⟨rfl, by decide⟩
    (by decide) (by simp) (by decide +kernel) hwithin hsupplies 4 (.value (.int 7)) _ rfl id
  refine ⟨log, hwatch, ?_, hagrees⟩
  have hcalls : (oneItemMachine.watchResult 4 recordingTracer ⟨0, firstItemUnit, [], ⟨0⟩, []⟩
      [.list ⟨0⟩] []).map (fun p => p.2.log.map (·.call)) =
        some [.returnValue, .binarySubscr] := rfl
  rw [hwatch] at hcalls
  exact Option.some.inj hcalls

def CodeOf.EndsWith (c : Code) (args : List Value) (kwargs : Keywords) (o : Outcome) : Prop :=
  ∃ fuel n, Machine.callResult fuel {} (.function ⟨0, c, [], ⟨0⟩, []⟩) args kwargs = some (o, n)

theorem CodeOf.endsWith_of_bind {c : Code} {args : List Value} {kwargs : Keywords}
    (h : FunctionOf.bind ⟨0, c, [], ⟨0⟩, []⟩ args kwargs (Machine.memory {}).store =
      .error (.inl failure)) :
    c.EndsWith args kwargs (.raised (Store.failed (Machine.memory {}).store failure).1 []) :=
  ⟨0, _, Machine.callResult_of_refusal h 0⟩

theorem CodeOf.endsWith_of_go {c : Code} {args : List Value} {kwargs : Keywords}
    (hbind : ∀ s, FunctionOf.bind ⟨0, c, [], ⟨0⟩, []⟩ args kwargs s = .ok (f, s))
    (hgo : Run.go {} fuel ⟨f, [], 0, Machine.memory {}⟩ = some (o, n)) : c.EndsWith args kwargs o :=
  ⟨fuel, n, (Machine.callResult_of_bind (by decide) (hbind _)).trans hgo⟩

def idle : Stream := [.const .none, .bare .returnValue]

def idleUnit : Code :=
  { firstItemUnit with
    argCount := 0
    stackSize := 1
    flags := ⟨0x49⟩
    code := [⟨.loadConst, 0⟩, ⟨.bare .returnValue, 0⟩]
    varNames := ["kw"]
    name := "idle"
    lines := []
    consts := [.none] }

def idleTraced : Code :=
  { idleUnit with
    argCount := 1
    numLocals := 2
    stackSize := 3
    code := [⟨.loadConst, 0⟩, ⟨.bare .dupTop, 0⟩, ⟨.name .loadFast, 0⟩, ⟨.name .loadAttr, 0⟩,
      ⟨.bare .rotTwo, 0⟩, ⟨.call .callFunction, 1⟩, ⟨.bare .popTop, 0⟩, ⟨.bare .returnValue, 0⟩]
    names := ["return_value"]
    varNames := [slot, "kw"] }

def looseLocal : Stream := [.name .loadFast "x", .bare .returnValue]

def looseLocalUnit : Code :=
  { idleUnit with
    flags := ⟨0x45⟩
    code := [⟨.name .loadFast, 0⟩, ⟨.bare .returnValue, 0⟩]
    varNames := ["x"]
    name := "loose"
    consts := [] }

def looseLocalTraced : Code :=
  { looseLocalUnit with
    numLocals := 2
    stackSize := 3
    code := [⟨.name .loadFast, 1⟩, ⟨.bare .dupTop, 0⟩, ⟨.name .loadFast, 0⟩, ⟨.name .loadAttr, 0⟩,
      ⟨.bare .rotTwo, 0⟩, ⟨.call .callFunction, 1⟩, ⟨.bare .popTop, 0⟩, ⟨.bare .returnValue, 0⟩]
    names := ["return_value"]
    varNames := [slot, "x"] }

def fallenCall : Stream :=
  [.const .none, .jump .setupExcept ⟨0⟩, .bare .popTop, .count .raiseVarargs 0, .mark ⟨0⟩,
   .call .callFunction 1 1, .bare .returnValue]

def fallenCallUnit : Code :=
  { idleUnit with
    numLocals := 0
    stackSize := 4
    flags := ⟨0x41⟩
    code := [⟨.loadConst, 0⟩, ⟨.jump .setupExcept, 2⟩, ⟨.bare .popTop, 0⟩,
      ⟨.count .raiseVarargs, 0⟩, ⟨.call .callFunction, 257⟩, ⟨.bare .returnValue, 0⟩]
    varNames := []
    name := "fallen" }

def fallenCallTraced : Code :=
  { fallenCallUnit with
    argCount := 1
    numLocals := 1
    stackSize := 6
    code := [⟨.loadConst, 0⟩, ⟨.jump .setupExcept, 2⟩, ⟨.bare .popTop, 0⟩,
      ⟨.count .raiseVarargs, 0⟩, ⟨.count .buildTuple, 3⟩, ⟨.bare .dupTopTwo, 0⟩,
      ⟨.name .loadFast, 0⟩, ⟨.name .loadAttr, 0⟩, ⟨.bare .rotThree, 0⟩, ⟨.loadConst, 1⟩,
      ⟨.call .callFunction, 3⟩, ⟨.bare .popTop, 0⟩, ⟨.count .unpackSequence, 3⟩,
      ⟨.count .buildTuple, 3⟩, ⟨.count .unpackSequence, 3⟩, ⟨.call .callFunction, 257⟩,
      ⟨.bare .dupTop, 0⟩, ⟨.name .loadFast, 0⟩, ⟨.name .loadAttr, 1⟩, ⟨.bare .rotTwo, 0⟩,
      ⟨.call .callFunction, 1⟩, ⟨.bare .popTop, 0⟩, ⟨.bare .returnValue, 0⟩]
    names := ["call_function", "return_value"]
    varNames := [slot]
    consts := [.none, .int 257] }

def CodeOf.frameAt (c : Code) (fast : List (Option Value)) (ip : Nat) (stack : List Value)
    (blocks : List Block) (handled : Option (Exception × List TraceEntry)) : Frame :=
  { code := c, fast, names := ⟨0⟩, globals := ⟨0⟩, closure := [], stack, blocks, handled, ip }

def CodeOf.falling (c : Code) (rest : List Instruction) (consts : List Const) : Code :=
  { c with
    code := fallenCallUnit.code.take 4 ++ rest
    consts := .none :: consts }

theorem CodeOf.falling_comes_to_handler (c : Code) (rest : List Instruction) (consts : List Const)
    (fast : List (Option Value)) (fuel : Nat) (m : Memory) :
    ∃ kind e traceback handled m',
      Run.go {} (fuel + 4) ⟨(c.falling rest consts).frameAt fast 0 [] [] none, [], 0, m⟩ =
        Run.go {} fuel ⟨(c.falling rest consts).frameAt fast 4
          [.exceptionType kind, .exception e, traceback] [] handled, [], 4, m'⟩ := by
  let at_ := (c.falling rest consts).frameAt fast
  have hload : Run.advance {} ⟨at_ 0 [] [] none, [], 0, m⟩ =
      .running ⟨at_ 1 [.none] [] none, [], 1, m⟩ := rfl
  have henter : Run.advance {} ⟨at_ 1 [.none] [] none, [], 1, m⟩ =
      .running ⟨at_ 2 [.none] [⟨.except, 4, 1⟩] none, [], 2, m⟩ := rfl
  have hdrop : Run.advance {} ⟨at_ 2 [.none] [⟨.except, 4, 1⟩] none, [], 2, m⟩ =
      .running ⟨at_ 3 [] [⟨.except, 4, 1⟩] none, [], 3, m⟩ := rfl
  have hraise : ∃ kind e traceback handled m', Run.advance {}
      ⟨at_ 3 [] [⟨.except, 4, 1⟩] none, [], 3, m⟩ = .running
        ⟨at_ 4 [.exceptionType kind, .exception e, traceback] [] handled, [], 4, m'⟩ :=
          ⟨_, _, _, _, _, rfl⟩
  obtain ⟨kind, e, traceback, handled, m', hraise⟩ := hraise
  refine ⟨kind, e, traceback, handled, m', ?_⟩
  rw [Run.go_of_running hload, Run.go_of_running henter, Run.go_of_running hdrop,
    Run.go_of_running hraise]

/-- Calls that show the tracer: one with too many arguments, one with a keyword that is the name of
its fast local, one of a unit that collects arguments and names no parameter for them, and one that
does not find its arguments. -/
theorem tracing_is_visible :
    (Twins "items" firstItem { name := "first", args := ["xs"] } firstItemUnit firstItemTraced ∧
      ∃ e e', firstItemUnit.EndsWith [.none, .none] [] (.raised e []) ∧
        firstItemTraced.EndsWith [.hook recordingTracer, .none, .none] [] (.raised e' []) ∧
        e.args ≠ e'.args) ∧
    (Twins "items" idle { name := "idle", args := ["kw"], varKeywords := true } idleUnit
      idleTraced ∧
      idleUnit.EndsWith [] [(slot, .none)] (.value .none) ∧
        ∃ e, idleTraced.EndsWith [.hook recordingTracer] [(slot, .none)] (.raised e [])) ∧
    (Twins "items" looseLocal { name := "loose", varArgs := true } looseLocalUnit looseLocalTraced ∧
      looseLocalUnit.EndsWith [] [] (.value (.tuple [])) ∧
        ∃ e entries, looseLocalTraced.EndsWith [.hook recordingTracer] [] (.raised e entries)) ∧
    (Twins "items" fallenCall { name := "fallen" } fallenCallUnit fallenCallTraced ∧
      (∃ e entries, fallenCallUnit.EndsWith [] [] (.raised e entries)) ∧
        fallenCallTraced.EndsWith [.hook recordingTracer] []
          (.fatal (.underflow 5) ["fallen"])) := by
  refine ⟨⟨firstItem_twins, _, _, CodeOf.endsWith_of_bind rfl, CodeOf.endsWith_of_bind rfl, ?_⟩,
    ⟨⟨assemble_eq_ok_iff.1 (by cbv), assemble_eq_ok_iff.1 (by cbv), by decide,
        by decide, by decide, fun pool => by cases pool <;> decide⟩,
      ⟨2, _, rfl⟩, _, CodeOf.endsWith_of_bind rfl⟩,
    ⟨⟨assemble_eq_ok_iff.1 (by cbv), assemble_eq_ok_iff.1 (by cbv), by decide,
        by decide, by decide, fun pool => by cases pool <;> decide⟩,
      ⟨2, _, rfl⟩, ?_⟩,
    ⟨assemble_eq_ok_iff.1 (by cbv), assemble_eq_ok_iff.1 (by cbv), by decide,
        by decide, by decide, fun pool => by cases pool <;> decide⟩, ?_, ?_⟩
  · have hmessage : (Failure.tooManyArguments "first" 1 2).message ≠
        (Failure.tooManyArguments "first" 2 3).message := by decide +kernel
    intro hargs
    have hargs' : [Value.str (Failure.tooManyArguments "first" 1 2).message] =
      [.str (Failure.tooManyArguments "first" 2 3).message] := hargs
    rw [List.cons.injEq, Value.str.injEq] at hargs'
    exact hmessage hargs'.1
  · have hraise : ∃ e entries m', Run.advance {} ⟨looseLocalTraced.frameAt
        [some (.tuple [.hook recordingTracer]), none] 0 [] [] none, [], 0, Machine.memory {}⟩ =
          .ended (.raised e entries) m' := ⟨_, _, _, rfl⟩
    obtain ⟨e, entries, m', hraise⟩ := hraise
    exact ⟨e, entries, CodeOf.endsWith_of_go (f := looseLocalTraced.frameAt
      [some (.tuple [.hook recordingTracer]), none] 0 [] [] none) (n := m') (fun _ => rfl)
      (Run.go_of_ended hraise 0)⟩
  · obtain ⟨kind, e, traceback, handled, m, hgo⟩ := CodeOf.falling_comes_to_handler fallenCallUnit
      (fallenCallUnit.code.drop 4) [] [] 1 (Machine.memory {})
    have hraise : ∃ e' entries m', Run.advance {} ⟨fallenCallUnit.frameAt [] 4
        [.exceptionType kind, .exception e, traceback] [] handled, [], 4, m⟩ =
          .ended (.raised e' entries) m' := ⟨_, _, _, rfl⟩
    obtain ⟨e', entries, m', hraise⟩ := hraise
    exact ⟨e', entries, CodeOf.endsWith_of_go (n := m') (fun _ => rfl)
      (hgo.trans (Run.go_of_ended hraise 0))⟩
  · obtain ⟨kind, e, traceback, handled, m, hgo⟩ := CodeOf.falling_comes_to_handler fallenCallTraced
      (fallenCallTraced.code.drop 4) [.int 257] [some (.hook recordingTracer)] 2 (Machine.memory {})
    have hfatal : Run.go {} 2 ⟨fallenCallTraced.frameAt [some (.hook recordingTracer)] 4
        [.exceptionType kind, .exception e, traceback] [] handled, [], 4, m⟩ =
          some (.fatal (.underflow 5) ["fallen"], m) := rfl
    exact CodeOf.endsWith_of_go (fun _ => rfl) (hgo.trans hfatal)

end Examples

end Bytewright
