import Bytewright.Proofs.Inversion.Depth
import Bytewright.Proofs.Inversion.Expression
import Bytewright.Proofs.Inversion.Run
import Bytewright.Proofs.Tracing.Call

/-!
# Calls of inverted units

An inverted unit takes the inverter and the value to store in front of the other arguments.  A call
that is refused is refused with the same exception, in which only the numbers of arguments differ.
-/

namespace Bytewright

open Assemble List OfCode

/-! ### Calls and runs -/

/-- The call is the run from `start`, up to the limits of the machine. -/
structure Machine.Conducts (m : Machine) (g : Value) (args : List Value)
    (kwargs : Keywords) (start : Run) : Prop where
  finishes : ∀ fuel o n, m.callResult fuel g args kwargs = some (o, n) →
    o.AtLimit ∨ start.Finishes o n
  ends : ∀ o n, start.Finishes o n → ∃ fuel o' n', m.callResult fuel g args kwargs = some (o', n') ∧
    (o'.AtLimit ∨ o' = o ∧ n' = n)

theorem Machine.conducts_of_bind {m : Machine} {g : Function} {args : List Value}
    {kwargs : Keywords} {f : Frame} {s : Store}
    (hbind : g.bind args kwargs m.memory.store = .ok (f, s)) :
    m.Conducts (.function g) args kwargs ⟨f, [], 0, { m.memory with store := s }⟩ := by
  by_cases hdepth : m.limits.callDepth = 0
  · have hcall (fuel : Nat) : m.callResult fuel (.function g) args kwargs =
        some (.fatal (.callLimit m.limits.callDepth f.code.name) [], m.memory) := by
      simp only [callResult, hbind, if_pos hdepth]
    refine ⟨fun fuel o n h => ?_, fun o n _ => ⟨0, _, _, hcall 0, .inl rfl⟩⟩
    rw [hcall] at h
    cases h
    exact .inl rfl
  · refine ⟨fun fuel o n h => ?_, fun o n h => ?_⟩
    · rw [callResult_of_bind hdepth hbind] at h
      exact Run.finishes_of_go h
    · obtain ⟨fuel, o', n', hgo, hor⟩ := h.exists_go m.limits
      exact ⟨fuel, o', n', (callResult_of_bind hdepth hbind).trans hgo, hor⟩

theorem Machine.callResult_of_error {m : Machine} {g g' : Function} {args args' : List Value}
    {kwargs kwargs' : Keywords} {e : Failure ⊕ Fatal}
    (h : g.bind args kwargs m.memory.store = .error e)
    (h' : g'.bind args' kwargs' m.memory.store = .error e) (fuel : Nat) :
    m.callResult fuel (.function g) args kwargs =
      m.callResult fuel (.function g') args' kwargs' := by
  simp only [callResult, h, h']

namespace Inversion

/-! ### Two more parameters -/

variable {fileName : String} {ops front : Stream} {load : Op} {store : Stream} {header : Header}
  {c t : Code} {inverter : Hook} {v : Value} {k : Function} {args : List Value}
  {kwargs : Keywords} {s : Store}

namespace Pair

variable (h : Pair fileName ops front load store header c t)
  (hparams : header.varArgs.toNat + header.varKeywords.toNat ≤ header.args.length)
include h hparams

theorem exists_prepends :
    ∃ mid, CodeOf.Prepends valueSlot c mid ∧ CodeOf.Prepends inverterSlot mid t := by
  have hinverted : Assembled fileName (front ++ (store ++ [.bare .returnValue]))
      { header with args := [inverterSlot, valueSlot] ++ header.args } t := h.inverted
  obtain ⟨hcount, hrest, hextra, hnew, hname, hslots⟩ :=
    h.plain.parameters_of_append hinverted h.addressable hparams
  have hlt : c.argCount.toNat + 1 < 4294967296 := by
    have hlt' := t.argCount.toNat_lt
    rw [hcount] at hlt'
    exact Nat.lt_of_succ_lt hlt'
  let mid : Code := { c with
    argCount := UInt32.ofNat (c.argCount.toNat + 1), varNames := valueSlot :: c.varNames }
  have hmid : mid.argCount.toNat = c.argCount.toNat + 1 := UInt32.toNat_ofNat_of_lt' hlt
  have hprepends : CodeOf.Prepends valueSlot c mid := ⟨hmid, rfl, rfl, rfl, rfl, rfl, hslots⟩
  refine ⟨mid, hprepends, ?_, h.varNames_eq, hrest, hextra, hnew, hname, ?_⟩
  · rw [hcount, hmid]
    rfl
  · rw [hprepends.argumentSlots_eq]
    exact Nat.succ_le_succ hslots

theorem bind (hkwargs : ∀ p ∈ kwargs, p.1 ≠ inverterSlot ∧ p.1 ≠ valueSlot)
    (hdefaults : k.defaults.length ≤ c.argCount.toNat)
    (hargs : ¬(c.argCount.toNat < args.length ∧ c.takesRest = false)) (inverter : Hook) (v : Value)
    (s : Store) :
    FunctionOf.bind { k with code := t } (.hook inverter :: v :: args) kwargs s =
      (FunctionOf.bind { k with code := c } args kwargs s).map fun p =>
        ((h.shift inverter v).equip p.1, p.2) := by
  obtain ⟨mid, hvalue, hinverter⟩ := h.exists_prepends hparams
  have hdefaults' : k.defaults.length ≤ mid.argCount.toNat := by
    rw [hvalue.argCount_eq]
    omega
  have hargs' : ¬(mid.argCount.toNat < (v :: args).length ∧ mid.takesRest = false) := by
    rwa [hvalue.argCount_eq, hvalue.takesRest_eq, length_cons, Nat.add_lt_add_iff_right]
  rw [hinverter.bind (fun p hp => (hkwargs p hp).1) hdefaults' hargs',
    hvalue.bind (fun p hp => (hkwargs p hp).2) hdefaults hargs]
  cases FunctionOf.bind { k with code := c } args kwargs s <;> rfl

theorem bind_of_surplus (hargs : c.argCount.toNat < args.length ∧ c.takesRest = false)
    (inverter : Hook) (v : Value) (k : Function) (kwargs : Keywords) (s : Store) :
    FunctionOf.bind { k with code := c } args kwargs s =
        .error (.inl (.tooManyArguments c.name c.argCount.toNat args.length)) ∧
      FunctionOf.bind { k with code := t } (.hook inverter :: v :: args) kwargs s =
        .error (.inl (.tooManyArguments c.name (c.argCount.toNat + 2) (args.length + 2))) := by
  obtain ⟨mid, hvalue, hinverter⟩ := h.exists_prepends hparams
  have hargs' : mid.argCount.toNat < (v :: args).length ∧ mid.takesRest = false := by
    rwa [hvalue.argCount_eq, hvalue.takesRest_eq, length_cons, Nat.add_lt_add_iff_right]
  have hrefused : FunctionOf.bind { k with code := t } (.hook inverter :: v :: args) kwargs s =
      .error (.inl (.tooManyArguments mid.name (mid.argCount.toNat + 1) (args.length + 2))) :=
    (hinverter.bind_of_surplus hargs' (.hook inverter) s).2
  rw [hvalue.name_eq, hvalue.argCount_eq] at hrefused
  exact ⟨(hvalue.bind_of_surplus hargs v s).1, hrefused⟩

end Pair

/-! ### Calls -/

/-- The call of the inverted unit does what the call of the unit does, up to the final load. -/
structure Follows (m : Machine) (s : Site) (S : Shift True) (k : Function) (args : List Value)
    (kwargs : Keywords) : Prop where
  surplus : S.plain.argCount.toNat < args.length → S.plain.takesRest = false → ∀ fuel,
    m.callResult fuel (.function { k with code := S.plain }) args kwargs =
        some (m.refusal (.tooManyArguments S.plain.name S.plain.argCount.toNat args.length)) ∧
      m.callResult fuel (.function { k with code := S.shifted })
          (.hook s.inverter :: s.value :: args) kwargs =
        some (m.refusal
          (.tooManyArguments S.plain.name (S.plain.argCount.toNat + 2) (args.length + 2)))
  refused : ¬(S.plain.argCount.toNat < args.length ∧ S.plain.takesRest = false) → ∀ e,
    FunctionOf.bind { k with code := S.plain } args kwargs m.memory.store = .error e → ∀ fuel,
      m.callResult fuel (.function { k with code := S.shifted })
          (.hook s.inverter :: s.value :: args) kwargs =
        m.callResult fuel (.function { k with code := S.plain }) args kwargs
  entered : ∀ f store,
    FunctionOf.bind { k with code := S.plain } args kwargs m.memory.store = .ok (f, store) →
      m.Conducts (.function { k with code := S.plain }) args kwargs
          ⟨f, [], 0, { m.memory with store }⟩ ∧
        m.Conducts (.function { k with code := S.shifted }) (.hook s.inverter :: s.value :: args)
          kwargs ⟨S.equip f, [], 0, { m.memory with store }⟩ ∧
        Performed s S ⟨f, [], 0, { m.memory with store }⟩
          ⟨S.equip f, [], 0, { m.memory with store }⟩

namespace Pair

theorem follows (h : Pair fileName ops front load store header c t)
    (hparams : header.varArgs.toNat + header.varKeywords.toNat ≤ header.args.length)
    (hkind : inverter.kind = .inverter) (v : Value) (m : Machine)
    (hdefaults : k.defaults.length ≤ c.argCount.toNat)
    (hkwargs : ∀ p ∈ kwargs, p.1 ≠ inverterSlot ∧ p.1 ≠ valueSlot) :
    Follows m (h.site inverter v) (h.shift inverter v) k args kwargs where
  surplus hmany hrest fuel := by
    obtain ⟨hbind, hbind'⟩ :=
      h.bind_of_surplus hparams ⟨hmany, hrest⟩ inverter v k kwargs m.memory.store
    exact ⟨Machine.callResult_of_refusal hbind fuel, Machine.callResult_of_refusal hbind' fuel⟩
  refused hargs e hbind fuel := by
    change FunctionOf.bind { k with code := c } args kwargs m.memory.store = .error e at hbind
    have hbind' := h.bind hparams hkwargs hdefaults hargs inverter v m.memory.store
    rw [hbind] at hbind'
    exact Machine.callResult_of_error hbind' hbind fuel
  entered f store hbind := by
    change FunctionOf.bind { k with code := c } args kwargs m.memory.store = .ok (f, store) at hbind
    have hargs : ¬(c.argCount.toNat < args.length ∧ c.takesRest = false) := by
      intro hargs
      obtain ⟨hrefused, -⟩ := h.bind_of_surplus hparams hargs inverter v k kwargs m.memory.store
      cases hbind.symm.trans hrefused
    have hbind' := h.bind hparams hkwargs hdefaults hargs inverter v m.memory.store
    rw [hbind] at hbind'
    refine ⟨Machine.conducts_of_bind hbind, Machine.conducts_of_bind hbind', h.performed hkind ?_⟩
    obtain ⟨hcode, -, hblocks, -, hip⟩ := FunctionOf.bind_eq_ok hbind
    refine ⟨.bottom ⟨hcode, hip.le.trans (Nat.zero_le _), fun b hb => ?_⟩, rfl, rfl⟩
    rw [hblocks] at hb
    cases hb

end Pair

end Inversion

open Inversion in
/-- Inversion stores what was loaded.  An expression can be inverted if and only if it is a name, an
attribute, a subscription or a call.  A stream that can be inverted ends in such a load, which it
returns.  If it does not use the fast locals of inverter and value, then its inverted stream can be
assembled with these as its first parameters, as far as there is room on the stack, and a call does
what the call of the unit does that was inverted, with the same frames, memory and exceptions, up to
the final load.  There it calls the method of the inverter that has the name of the load once, with
the operands of the load in their order, followed by the value; it returns `None`, or raises the
exception of the method where the load is.  It is cut off if the operands are not on the stack. -/
theorem inversion_stores_what_was_loaded :
    (∀ (text fileName : String) (e : Expr), parseExpression text = .ok e →
      text.length + 1 < 4294967296 →
      ((∃ inverted, injectInversion (.line 1 :: (e.emit {}).1 ++ [.bare .returnValue]) =
        .ok inverted) ↔ e.isPlace = true) ∧
      ∃ c, compileExpression e fileName = .ok c ∧ ∀ ls, ∃ ops ls', c.toStream ls = (.ok ops, ls') ∧
        ((∃ inverted, injectInversion ops = .ok inverted) ↔ e.isPlace = true)) ∧
    ∀ (fileName : String) (ops inverted : Stream) (header : Header) (c : Code),
      assemble fileName ops header = .ok c → injectInversion ops = .ok inverted →
      (∀ op ∈ ops, touches op = false) →
      header.varArgs.toNat + header.varKeywords.toNat ≤ header.args.length →
      ∃ (front : Stream) (load : Op) (store : Stream), Ends ops front load ∧
        inverted = front ++ (store ++ [.bare .returnValue]) ∧
        (inverterSlot ∉ header.args → valueSlot ∉ header.args → size ops < 4294967296 →
          c.stackSize.toNat + 4 < 4294967296 →
          (∀ max, header.maxStackSize = some max → c.stackSize.toNat + 4 ≤ max.toNat) →
          ∃ t, assemble fileName inverted (reserve header) = .ok t) ∧
        ∀ t, assemble fileName inverted (reserve header) = .ok t → t.Addressable →
          (∃ i, c.code[size front]? = some i ∧ Denotes c (placeIn ops) (size front) i load) ∧
          ∀ (inverter : Hook) (v : Value), inverter.kind = .inverter →
            ∃ S : Shift True, S.plain = c ∧ S.shifted = t ∧ S.extra = [.hook inverter, v] ∧
              S.limit = size front ∧
              ∀ (m : Machine) (k : Function) (args : List Value) (kwargs : Keywords),
                k.defaults.length ≤ c.argCount.toNat →
                (∀ p ∈ kwargs, p.1 ≠ inverterSlot ∧ p.1 ≠ valueSlot) →
                Follows m ⟨load, size front, store.length, inverter, v⟩ S k args kwargs := by
  refine ⟨fun text fileName e he hlength => ?_, fun fileName ops inverted header c hc hinverted
    huntouched hparams => ?_⟩
  · have hsize := size_emit_of_parseExpression he
    exact injectInversion_compiled_iff (callable_of_parseExpression he) (by omega) fileName
  · obtain ⟨front, load, store, hends, hstore, rfl⟩ := injectInversion_eq_ok_iff.1 hinverted
    rw [assemble_eq_ok_iff] at hc
    have hfront : ∀ op ∈ front, touches op = false := by
      obtain ⟨-, lines, lines', -, rfl⟩ := hends
      exact fun op hop => huntouched op (List.mem_append_left _ hop)
    refine ⟨front, load, store, hends, rfl, fun hinverter hvalue hsize hroom hmax => ?_,
      fun t ht haddressable => ?_⟩
    · obtain ⟨t, ht⟩ :=
        exists_assembled_inverted hends hstore hfront hc hsize ⟨hinverter, hvalue⟩ hroom hmax
      exact ⟨t, assemble_eq_ok_iff.2 ht⟩
    · have h : Pair fileName ops front load store header c t :=
        ⟨hends, ⟨_, hstore⟩, hfront, hc, assemble_eq_ok_iff.1 ht, haddressable⟩
      refine ⟨h.exists_load, fun inverter v hkind =>
        ⟨h.shift inverter v, rfl, rfl, rfl, rfl, fun m k args kwargs hdefaults hkwargs => ?_⟩⟩
      exact h.follows hparams hkind v m hdefaults hkwargs

/-! ### What an inverted call shows -/

section Examples

open Inversion

def attributeLoad : Stream :=
  [.name .loadFast "obj", .name .loadAttr "a", .bare .returnValue]

def attributeStore : Stream :=
  [.name .loadFast inverterSlot, .name .loadAttr "load_attr", .bare .rotTwo, .const (.str "a"),
    .name .loadFast valueSlot, plainCall 3]

def attributeUnit : Code where
  argCount := 1
  numLocals := 1
  stackSize := 1
  flags := ⟨0x41⟩
  code := [⟨.name .loadFast, 0⟩, ⟨.name .loadAttr, 0⟩, ⟨.bare .returnValue, 0⟩]
  names := ["a"]
  varNames := ["obj"]
  fileName := "items"
  name := "attribute"
  firstLine := 0

def attributeInverted : Code :=
  { attributeUnit with
    argCount := 3
    numLocals := 3
    stackSize := 4
    code := [⟨.name .loadFast, 2⟩, ⟨.name .loadFast, 0⟩, ⟨.name .loadAttr, 0⟩, ⟨.bare .rotTwo, 0⟩,
      ⟨.loadConst, 0⟩, ⟨.name .loadFast, 1⟩, ⟨.call .callFunction, 3⟩, ⟨.bare .returnValue, 0⟩]
    names := ["load_attr"]
    varNames := [inverterSlot, valueSlot, "obj"]
    consts := [.str "a"] }

def recordingInverter : Hook := ⟨1, .inverter, true, fun _ => .accept⟩

theorem attributeLoad_pair {header : Header} {c t : Code}
    (hplain : assemble "items" attributeLoad header = .ok c)
    (hinverted : assemble "items" ([.name .loadFast "obj"] ++ (attributeStore ++
      [.bare .returnValue])) (reserve header) = .ok t) (ht : t.Addressable) :
    Pair "items" attributeLoad [.name .loadFast "obj"] (.name .loadAttr "a") attributeStore header c
      t where
  ends := ⟨rfl, [], [], by simp, rfl⟩
  store_eq := ⟨false, rfl⟩
  untouched := by decide
  plain := assemble_eq_ok_iff.1 hplain
  inverted := assemble_eq_ok_iff.1 hinverted
  addressable := ht

theorem attribute_pair : Pair "items" attributeLoad [.name .loadFast "obj"] (.name .loadAttr "a")
    attributeStore { name := "attribute", args := ["obj"] } attributeUnit attributeInverted :=
  attributeLoad_pair (by cbv) (by cbv)
    ⟨by decide, by decide, fun pool => by cases pool <;> decide⟩

/-- An attribute can be inverted and a difference cannot.  The inverted call stores into the
attribute that the call would have loaded. -/
theorem attribute_is_stored :
    (∃ e, parseExpression "obj.a" = .ok e ∧ ∃ inverted,
      injectInversion (.line 1 :: (e.emit {}).1 ++ [.bare .returnValue]) = .ok inverted) ∧
    (∃ e, parseExpression "obj.a - 1" = .ok e ∧ ¬∃ inverted,
      injectInversion (.line 1 :: (e.emit {}).1 ++ [.bare .returnValue]) = .ok inverted) ∧
    ∃ fuel o n, Machine.callResult fuel {} (.function ⟨0, attributeInverted, [], ⟨0⟩, []⟩)
        [.hook recordingInverter, .int 5, .int 7] [] = some (o, n) ∧
      (o.AtLimit ∨ o = .value .none ∧ n.log.map (fun event => (event.call, event.operands)) =
        [(.loadAttr, [.value (.int 7), .name "a", .value (.int 5)])]) := by
  have hparsed (text : String) (place : Bool)
      (h : (parseExpression text).toOption.map Expr.isPlace = some place) :
      ∃ e, parseExpression text = .ok e ∧ e.isPlace = place := by
    cases hparse : parseExpression text with
    | error =>
      rw [hparse] at h
      cases h
    | ok e =>
      rw [hparse] at h
      exact ⟨e, rfl, Option.some.inj h⟩
  obtain ⟨hexpressions, hstreams⟩ := inversion_stores_what_was_loaded
  refine ⟨?_, ?_, ?_⟩
  · obtain ⟨e, he, hplace⟩ := hparsed "obj.a" true (by decide +kernel)
    exact ⟨e, he, (hexpressions _ "items" e he (by decide)).1.2 hplace⟩
  · obtain ⟨e, he, hplace⟩ := hparsed "obj.a - 1" false (by decide +kernel)
    refine ⟨e, he, fun hinverted => ?_⟩
    rw [(hexpressions _ "items" e he (by decide)).1, hplace] at hinverted
    cases hinverted
  · obtain ⟨front, load, store, hends, hinverted, -, hcalls⟩ := hstreams "items" attributeLoad
      ([.name .loadFast "obj"] ++ (attributeStore ++ [.bare .returnValue]))
      { name := "attribute", args := ["obj"] } attributeUnit
      (assemble_eq_ok_iff.2 attribute_pair.plain) rfl (by decide) (by decide)
    -- there is one final load
    have hload : finalLoad? attributeLoad = some (load, front.reverse) :=
      finalLoad?_eq_some_iff.2 (by rwa [List.reverse_reverse])
    change some (Op.name .loadAttr "a", [Op.name .loadFast "obj"]) = some (load, front.reverse)
      at hload
    obtain ⟨rfl, hfront⟩ := Prod.mk.inj (Option.some.inj hload)
    obtain rfl : [.name .loadFast "obj"] = front := by
      rw [← List.reverse_reverse front, ← hfront]
      rfl
    obtain ⟨-, hfollows⟩ := hcalls attributeInverted
      (assemble_eq_ok_iff.2 attribute_pair.inverted) attribute_pair.addressable
    obtain ⟨S, hplain, hshifted, -, -, hfollows⟩ := hfollows recordingInverter (.int 5) rfl
    obtain ⟨-, hconducts, hperformed⟩ := (hfollows {} ⟨0, attributeUnit, [], ⟨0⟩, []⟩ [.int 7] []
      (by decide) (by simp)).entered (attributeUnit.frameAt [some (.int 7)] 0 [] [] none)
      (Machine.memory {}).store (by rw [hplain]; rfl)
    rw [hshifted] at hconducts
    have hended := hperformed.ends
      ⟨attributeUnit.frameAt [some (.int 7)] 1 [.int 7] [] none, [], 1, Machine.memory {}⟩
      _ _ (.single rfl) rfl
    obtain ⟨fuel, o, n, hcall, hor⟩ := hconducts.ends _ _ hended
    refine ⟨fuel, o, n, hcall, hor.imp_right ?_⟩
    rintro ⟨rfl, rfl⟩
    exact ⟨rfl, rfl⟩

def collectingUnit : Code := { attributeUnit with argCount := 0, flags := ⟨0x49⟩ }

def collectingInverted : Code := { attributeInverted with argCount := 2, flags := ⟨0x49⟩ }

def looseUnit : Code := { attributeUnit with argCount := 0, flags := ⟨0x45⟩ }

def looseInverted : Code := { attributeInverted with argCount := 1, flags := ⟨0x45⟩ }

def fallenCallInverted : Code :=
  { fallenCallUnit with
    argCount := 2
    numLocals := 2
    stackSize := 5
    code := [⟨.loadConst, 0⟩, ⟨.jump .setupExcept, 2⟩, ⟨.bare .popTop, 0⟩,
      ⟨.count .raiseVarargs, 0⟩, ⟨.count .buildTuple, 3⟩, ⟨.name .loadFast, 0⟩,
      ⟨.name .loadAttr, 0⟩, ⟨.bare .rotThree, 0⟩, ⟨.loadConst, 1⟩, ⟨.name .loadFast, 1⟩,
      ⟨.call .callFunction, 4⟩, ⟨.bare .returnValue, 0⟩]
    names := ["call_function"]
    varNames := [inverterSlot, valueSlot]
    consts := [.none, .int 257] }

/-- Calls that show the inverter and the value: one with too many arguments, one with a keyword that
is the name of a reserved fast local, one of a unit that collects arguments and names no parameter
for them, and one that does not find the operands of its load.  No method is called. -/
theorem inversion_is_visible :
    (Pair "items" attributeLoad [.name .loadFast "obj"] (.name .loadAttr "a") attributeStore
        { name := "attribute", args := ["obj"] } attributeUnit attributeInverted ∧
      ∃ e e', attributeUnit.EndsWith [.none, .none] [] (.raised e []) ∧
        attributeInverted.EndsWith [.hook recordingInverter, .int 5, .none, .none] []
          (.raised e' []) ∧ e.args ≠ e'.args) ∧
    (Pair "items" attributeLoad [.name .loadFast "obj"] (.name .loadAttr "a") attributeStore
        { name := "attribute", args := ["obj"], varKeywords := true } collectingUnit
        collectingInverted ∧
      (∃ e entry, collectingUnit.EndsWith [] [(valueSlot, .none)] (.raised e [entry])) ∧
        ∃ e, collectingInverted.EndsWith [.hook recordingInverter, .int 5] [(valueSlot, .none)]
          (.raised e [])) ∧
    (Pair "items" attributeLoad [.name .loadFast "obj"] (.name .loadAttr "a") attributeStore
        { name := "attribute", varArgs := true } looseUnit looseInverted ∧
      ∃ e entry, looseInverted.EndsWith [.hook recordingInverter, .int 5] [] (.raised e [entry])) ∧
    (Pair "items" fallenCall [.const .none, .jump .setupExcept ⟨0⟩, .bare .popTop,
        .count .raiseVarargs 0, .mark ⟨0⟩] (.call .callFunction 1 1)
        [.count .buildTuple 3, .name .loadFast inverterSlot, .name .loadAttr "call_function",
          .bare .rotThree, .const (.int 257), .name .loadFast valueSlot, plainCall 4]
        { name := "fallen" } fallenCallUnit fallenCallInverted ∧
      fallenCallInverted.EndsWith [.hook recordingInverter, .int 5] []
        (.fatal (.underflow 7) ["fallen"])) := by
  refine ⟨⟨attribute_pair, _, _, CodeOf.endsWith_of_bind rfl, CodeOf.endsWith_of_bind rfl, ?_⟩,
    ⟨attributeLoad_pair (by cbv) (by cbv)
        ⟨by decide, by decide, fun pool => by cases pool <;> decide⟩,
      ⟨_, _, 2, _, rfl⟩, _, CodeOf.endsWith_of_bind rfl⟩,
    ⟨attributeLoad_pair (by cbv) (by cbv)
        ⟨by decide, by decide, fun pool => by cases pool <;> decide⟩, ?_⟩,
    ⟨⟨rfl, [], [], by simp, rfl⟩, ⟨false, rfl⟩, by decide, assemble_eq_ok_iff.1 (by cbv),
      assemble_eq_ok_iff.1 (by cbv),
      ⟨by decide, by decide, fun pool => by cases pool <;> decide⟩⟩, ?_⟩
  · have hmessage : (Failure.tooManyArguments "attribute" 1 2).message ≠
        (Failure.tooManyArguments "attribute" 3 4).message := by decide +kernel
    intro hargs
    have hargs' : [Value.str (Failure.tooManyArguments "attribute" 1 2).message] =
      [.str (Failure.tooManyArguments "attribute" 3 4).message] := hargs
    rw [List.cons.injEq, Value.str.injEq] at hargs'
    exact hmessage hargs'.1
  · have hraise : ∃ e entry m', Run.advance {} ⟨looseInverted.frameAt
        [some (.hook recordingInverter), some (.tuple [.int 5]), none] 0 [] [] none, [], 0,
          Machine.memory {}⟩ = .ended (.raised e [entry]) m' := ⟨_, _, _, rfl⟩
    obtain ⟨e, entry, m', hraise⟩ := hraise
    exact ⟨e, entry, CodeOf.endsWith_of_go (f := looseInverted.frameAt
      [some (.hook recordingInverter), some (.tuple [.int 5]), none] 0 [] [] none) (n := m')
      (fun _ => rfl) (Run.go_of_ended hraise 0)⟩
  · obtain ⟨kind, e, traceback, handled, m, hgo⟩ :=
      CodeOf.falling_comes_to_handler fallenCallInverted (fallenCallInverted.code.drop 4) [.int 257]
        [some (.hook recordingInverter), some (.int 5)] 4 (Machine.memory {})
    have hfatal : ∃ m', Run.go {} 4 ⟨fallenCallInverted.frameAt
        [some (.hook recordingInverter), some (.int 5)] 4
        [.exceptionType kind, .exception e, traceback] [] handled, [], 4, m⟩ =
          some (.fatal (.underflow 7) ["fallen"], m') := ⟨_, rfl⟩
    obtain ⟨m', hfatal⟩ := hfatal
    exact CodeOf.endsWith_of_go (fun _ => rfl) (hgo.trans hfatal)

end Examples

end Bytewright
