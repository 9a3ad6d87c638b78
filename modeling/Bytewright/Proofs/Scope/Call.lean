import Bytewright.Proofs.Machine.InRange
import Bytewright.Proofs.Scope.Fragment

/-!
# Calling fragments with resolved names

A unit with resolved names ends as the unresolved unit ends in a name space that holds the
arguments.
-/

namespace Bytewright

open Assemble OfCode Depth List

/-! ### Calls -/

theorem bindDefaults_map_some (c : Code) {xs : List String} {args : List Value}
    {defaults : List (Option Value)} (hxs : xs.length = args.length)
    (hdefaults : defaults.length = args.length) :
    bindDefaults c xs (args.map some) defaults = .ok args := by
  induction args generalizing xs defaults with
  | nil => simp [bindDefaults]
  | cons v args ih =>
    obtain ⟨x, xs, rfl⟩ := exists_cons_of_length_eq_add_one hxs
    obtain ⟨default, defaults, rfl⟩ := exists_cons_of_length_eq_add_one hdefaults
    rw [map_cons, bindDefaults, Option.some_or, ih (by simpa using hxs) (by simpa using hdefaults)]
    rfl

def FunctionOf.entered (k : Function) (args : List Value) (s : Store) : Frame where
  code := k.code
  fast := args.map some ++ List.replicate (k.code.varNames.length - args.length) none
  names := ⟨s.scopes.size⟩
  globals := k.globals
  closure := k.closure

theorem FunctionOf.bind_function {fileName name : String} {line : UInt32} {ops : Stream}
    {params : List String} {k : Function}
    (h : Assembled fileName ops (.function name line params) k.code)
    (hsize : params.length < 4294967296) {args : List Value} (hargs : args.length = params.length)
    (s : Store) : k.bind args [] s = .ok (k.entered args s, (s.newScope []).2) := by
  obtain ⟨hrest, hextra, hnew⟩ := contains_flags ops (.function name line params) k.code.freeVars
  have hrest' : k.code.takesRest = false := by rw [CodeOf.takesRest, h.flags_eq, hrest]; rfl
  have hextra' : k.code.takesExtra = false := by rw [CodeOf.takesExtra, h.flags_eq, hextra]; rfl
  have hnew' : k.code.flags.contains .newLocals = true := by rw [h.flags_eq, hnew]; rfl
  have hcount : k.code.argCount.toNat = args.length := by
    rw [h.argCount_eq, hargs]
    exact UInt32.toNat_ofNat_of_lt' hsize
  have hle : args.length ≤ k.code.varNames.length := hargs ▸ h.args_prefix.length_le
  have hparams : k.code.params.length = args.length := by
    rw [CodeOf.params, length_take, hcount]
    omega
  have hbind : bindArguments k.code k.defaults args [] = .ok ⟨args, [], []⟩ := by
    simp only [bindArguments, hcount, Nat.lt_irrefl, false_and, if_false, take_length,
      Nat.sub_self, replicate_zero, append_nil, bindKeywords, Bind.bind, Except.bind,
      bindDefaults_map_some k.code hparams (Direct.length_alignDefaults _ _), drop_length]
    rfl
  have hslots : ¬k.code.varNames.length < k.code.argumentSlots := by
    rw [CodeOf.argumentSlots, hrest', hextra', hcount]
    exact Nat.not_lt.2 hle
  simp only [FunctionOf.bind, if_neg hslots, hbind, FunctionOf.frame, hrest', hextra', hnew',
    Bool.false_eq_true, if_false, if_true, append_nil]
  rw [FunctionOf.entered, length_map]
  rfl

/-- A call without arguments, in a scope that starts with these names. -/
def Machine.callWithNames (fuel : Nat) (m : Machine) (k : Function) (names : Bindings) :
    Option (Outcome × Memory) :=
  match k.bind [] [] m.memory.store with
  | .ok (frame, store) =>
    if m.limits.callDepth = 0 then
      some (.fatal (.callLimit m.limits.callDepth frame.code.name) [], m.memory)
    else
      Run.go m.limits fuel
        { frame, memory := { m.memory with store := store.setScope frame.names names } }
  | .error (.inl failure) =>
    let (e, store) := m.memory.store.failed failure
    some (.raised e [], { m.memory with store })
  | .error (.inr cause) => some (.fatal cause [], m.memory)

namespace Bindings

variable {xs : List String} {args : List Value} {x : String}

theorem get?_foldl_of_notMem {pairs : Keywords} (h : x ∉ pairs.map Prod.fst)
    (b : Bindings) : (pairs.foldl (fun b p => b.insert p.1 p.2) b).get? x = b.get? x := by
  induction pairs generalizing b with
  | nil => rfl
  | cons p pairs ih =>
    rw [map_cons, mem_cons, not_or] at h
    rw [foldl_cons, ih h.2, get?_insert, if_neg h.1]

variable (hlength : args.length = xs.length)
include hlength

theorem map_get?_foldl (hxs : xs.Nodup) (b : Bindings) :
    xs.map ((xs.zip args).foldl (fun b p => b.insert p.1 p.2) b).get? = args.map some := by
  induction xs generalizing args b with
  | nil =>
    rw [eq_nil_of_length_eq_zero hlength]
    rfl
  | cons x xs ih =>
    obtain ⟨v, args, rfl⟩ := exists_cons_of_length_eq_add_one hlength
    obtain ⟨hx, hxs⟩ := nodup_cons.1 hxs
    have hlength' : args.length = xs.length := Nat.succ.inj hlength
    rw [← map_fst_zip hlength'.ge] at hx
    rw [zip_cons_cons, foldl_cons, map_cons, ih hlength' hxs,
      get?_foldl_of_notMem hx, get?_insert, if_pos rfl, map_cons]

theorem map_get?_ofList (hxs : xs.Nodup) : xs.map (ofList (xs.zip args)).get? = args.map some :=
  map_get?_foldl hlength hxs []

theorem get?_ofList_of_notMem (hx : x ∉ xs) : (ofList (xs.zip args)).get? x = none :=
  get?_foldl_of_notMem (by rwa [map_fst_zip hlength.ge]) []

theorem isSome_get?_ofList (hxs : xs.Nodup) : ((ofList (xs.zip args)).get? x).isSome ↔ x ∈ xs := by
  constructor
  · intro h
    by_contra hx
    rw [get?_ofList_of_notMem hlength hx] at h
    cases h
  · intro hx
    have hmem := mem_map_of_mem (f := (ofList (xs.zip args)).get?) hx
    rw [map_get?_ofList hlength hxs] at hmem
    obtain ⟨v, -, hv⟩ := mem_map.1 hmem
    rw [← hv]
    rfl

end Bindings

theorem Store.setScope_newScope (s : Store) (b : Bindings) :
    (s.newScope []).2.setScope ⟨s.scopes.size⟩ b = (s.newScope b).2 := by
  simp only [Store.newScope, Store.setScope]
  congr 1
  ext i hi hi'
  · simp
  · rw [Array.size_setIfInBounds, Array.size_push] at hi
    rw [Array.getElem_setIfInBounds (by rwa [Array.size_push]), Array.getElem_push,
      Array.getElem_push]
    split_ifs <;> first | rfl | omega

namespace Scope

variable {fileName name : String} {line : UInt32} {ops : Stream} {available : List String}
  {c d : Code}

theorem map_get?_varNames
    (hd : Assembled fileName (resolveNames available ops).2
      (.function name line (resolveNames available ops).1) d) {args : List Value}
    (hargs : args.length = (resolveNames available ops).1.length) :
    d.varNames.map (Bindings.ofList ((resolveNames available ops).1.zip args)).get? =
      args.map some ++ List.replicate (d.varNames.length - args.length) none := by
  obtain ⟨rest, hrest⟩ := hd.args_prefix
  have hrest' : (resolveNames available ops).1 ++ rest = d.varNames := hrest
  have hnodup := hd.nodup_varNames
  rw [← hrest', nodup_append] at hnodup
  have hnone : rest.map (Bindings.ofList ((resolveNames available ops).1.zip args)).get? =
      List.replicate rest.length none := by
    refine eq_replicate_iff.2 ⟨length_map _, fun v hv => ?_⟩
    obtain ⟨x, hx, rfl⟩ := mem_map.1 hv
    exact Bindings.get?_ofList_of_notMem hargs fun hx' => hnodup.2.2 x hx' x hx rfl
  rw [← hrest', map_append, Bindings.map_get?_ofList hargs hnodup.1, hnone, length_append,
    hargs, Nat.add_sub_cancel_left]

theorem pace_of_assembled {seen : Record} (hstart : Recorded seen 0 ⟨0, []⟩)
    (h : Resolution c d (Settled available ops) (Owned available ops))
    (hd : Assembled fileName (resolveNames available ops).2
      (.function name line (resolveNames available ops).1) d)
    {m : Memory} (hm : m.store.closed = true) {k : Function} {args : List Value}
    (hargs : args.length = (resolveNames available ops).1.length)
    (hwithin : withinAll m.store (.space k.globals :: args) = true) :
    h.Pace seen ⟨m.store.scopes.size⟩
      (Bindings.ofList ((resolveNames available ops).1.zip args)) Eq
      { frame := FunctionOf.entered { k with code := c } [] m.store
        memory := { m with
          store := (m.store.newScope (Bindings.ofList
            ((resolveNames available ops).1.zip args))).2 } }
      { frame := FunctionOf.entered { k with code := d } args m.store
        memory := { m with store := (m.store.newScope []).2 } } := by
  simp only [withinAll, Value.within, Bool.and_eq_true, decide_eq_true_eq] at hwithin
  have hscopes (r : ScopeRef) (hr : r.index < m.store.scopes.size) : r ≠ ⟨m.store.scopes.size⟩ := by
    rintro rfl
    exact Nat.lt_irrefl _ hr
  have hlinked : LinkedAll (.whole (· ≠ ⟨m.store.scopes.size⟩) True) Eq args args :=
    linkedAll_self hscopes (fun _ _ => rfl) args hwithin.2
  have hnodup : (resolveNames available ops).1.Nodup := (nodup_required available [] ops).1
  have hfast : LinkedSlots (.whole (· ≠ ⟨m.store.scopes.size⟩) True) Eq
      (d.varNames.map (Bindings.ofList ((resolveNames available ops).1.zip args)).get?)
      (args.map some ++ List.replicate (d.varNames.length - args.length) none) := by
    rw [map_get?_varNames hd hargs]
    refine forall₂_same.2 fun slot hslot => ?_
    cases slot with
    | none => exact .none
    | some v =>
      have hv : v ∈ args := by simpa using hslot
      exact .some (forall₂_same.1 hlinked v hv)
  have hlog : List.Forall₂ (Event.Linked (.whole (· ≠ ⟨m.store.scopes.size⟩) True) Eq)
      m.log m.log :=
    forall₂_same.2 fun _ _ => .inl rfl
  refine ⟨⟨.bottom ?_, ⟨Store.linked_newScope hm _, fun _ => hlog⟩, fun _ => rfl⟩,
    fun x hx => ?_, ?_⟩
  · exact
      { base := ⟨rfl, rfl, rfl, rfl, hfast⟩
        stack := .nil
        blocks := .nil
        handled := .none
        globals_eq := rfl
        globals_shared := hscopes k.globals hwithin.1 }
  · exact .inl ((Bindings.isSome_get?_ofList hargs hnodup).1 hx)
  · refine ⟨fun _ => ⟨rfl, rfl, ⟨rfl, hstart⟩, rfl, fun x hx => ?_⟩, fun z hz => by cases hz⟩
    rcases hx with hx | hx
    · exact (Bindings.isSome_get?_ofList hargs hnodup).2 hx
    · cases hx

end Scope

/-- Resolving the names of a compiled fragment keeps its meaning.  Called with arguments for the
names that it requires, the unit with resolved names ends as the unresolved one ends in a name space
that maps these names to the arguments, at whatever limits.  The memories are the same afterwards,
but for that name space, which only the unresolved unit uses. -/
theorem resolveNames_preserves_meaning {ops : Stream} (hops : FragmentStream ops)
    (hdelete : ∀ x, .name .deleteName x ∉ ops) (hsize : size ops < 4294967296)
    {available : List String} (hfirst : Scope.StoredFirst available ops) {fileName name : String}
    {line : UInt32} {c : Code} (hc : assemble fileName ops (.function name line []) = .ok c) :
    ∃ d, assemble fileName (resolveNames available ops).2
        (.function name line (resolveNames available ops).1) = .ok d ∧
      ∀ (m : Machine) (fuel : Nat) (k : Function) (args : List Value),
        args.length = (resolveNames available ops).1.length → m.memory.store.closed = true →
        withinAll m.memory.store (.space k.globals :: args) = true →
        Option.Rel (fun p q => p.1 = q.1 ∧ p.2.SameBut ⟨m.memory.store.scopes.size⟩ q.2)
          (m.callWithNames fuel { k with code := c }
            (.ofList ((resolveNames available ops).1.zip args)))
          (m.callResult fuel (.function { k with code := d }) args []) := by
  have hc' := assemble_eq_ok_iff.1 hc
  obtain ⟨d, hd, hconsts, hcode⟩ := Scope.exists_assembled_resolve hc' available
  refine ⟨d, assemble_eq_ok_iff.2 hd, fun m fuel k args hargs hm hwithin => ?_⟩
  have hstraight := hops.straight hdelete hsize (checkLabels_eq_ok_iff.1 hc'.labels).1
  have hresolution := Scope.resolution_of_assembled hd hc' hconsts hcode hsize hstraight hfirst
  have hlength : (Scope.required available [] ops).length < 4294967296 := by
    have := Scope.length_required_add_stored_le available [] ops
    omega
  have hbind : FunctionOf.bind { k with code := c } [] [] m.memory.store = _ :=
    FunctionOf.bind_function (k := { k with code := c }) hc' (by simp) rfl m.memory.store
  have hbind' : FunctionOf.bind { k with code := d } args [] m.memory.store = _ :=
    FunctionOf.bind_function (k := { k with code := d }) hd hlength hargs m.memory.store
  simp only [Machine.callWithNames, Machine.callResult, hbind, hbind']
  split_ifs
  · refine .some ⟨?_, ?_⟩
    · show Outcome.fatal (.callLimit _ c.name) [] = .fatal (.callLimit _ d.name) []
      rw [hc'.name_eq, hd.name_eq]
      rfl
    · exact ⟨.refl _ _, forall₂_same.2 fun e _ => ⟨rfl, rfl, .refl _ _⟩⟩
  · obtain ⟨seen, deepest, hsurvey, -⟩ := checkFrom_eq_ok_iff.1 hc'.check_eq
    obtain ⟨hs, hstart⟩ := survey_closed hsurvey
    have hgo := (Scope.pace_of_assembled hstart hresolution hd hm hargs hwithin).go hs m.limits
      fuel
    rw [← Store.setScope_newScope m.memory.store (.ofList _)] at hgo
    exact hgo

def shadowing : List Stmt :=
  [⟨.assign (.name "len") (.binary .multiply (.name "x") (.literal (.int 2))), 1⟩,
   ⟨.assign (.name "x") (.ifElse (.name "z") (.name "len") (.name "x")), 2⟩,
   ⟨.assign (.subscript (.name "xs") (.literal (.int 0))) (.name "x"), 3⟩]

def shadowingStream : Stream :=
  [.line 1, .name .loadName "x", .const (.int 2), .arith .multiply, .name .storeName "len",
   .line 2, .name .loadName "z", .jump .popJumpIfFalse ⟨0⟩, .name .loadName "len",
   .jump .jumpForward ⟨1⟩, .mark ⟨0⟩, .name .loadName "x", .mark ⟨1⟩, .name .storeName "x",
   .line 3, .name .loadName "x", .name .loadName "xs", .const (.int 0), .bare .storeSubscr,
   .const .none, .bare .returnValue]

def shadowingUnit : Code where
  stackSize := 3
  flags := ⟨0x42⟩
  code := [⟨.name .loadName, 0⟩, ⟨.loadConst, 0⟩, ⟨.binaryOp, 2⟩, ⟨.name .storeName, 1⟩,
    ⟨.name .loadName, 2⟩, ⟨.jump .popJumpIfFalse, 8⟩, ⟨.name .loadName, 1⟩,
    ⟨.jump .jumpForward, 1⟩, ⟨.name .loadName, 0⟩, ⟨.name .storeName, 0⟩, ⟨.name .loadName, 0⟩,
    ⟨.name .loadName, 3⟩, ⟨.loadConst, 1⟩, ⟨.bare .storeSubscr, 0⟩, ⟨.loadConst, 2⟩,
    ⟨.bare .returnValue, 0⟩]
  names := ["x", "len", "z", "xs"]
  fileName := "shadowing"
  name := "f"
  firstLine := 1
  lines := [(0, 1), (4, 2), (10, 3)]
  consts := [.int 2, .int 0, .none]

def shadowingMachine : Machine where
  memory :=
    { store := { scopes := #[[("z", .bool true), ("xs", .list ⟨0⟩)]], lists := #[[.none]] } }

def shadowingFunction (code : Code) : Function where
  id := 0
  code := code
  defaults := []
  globals := ⟨0⟩
  closure := []

/-- The suite is compiled to that stream and assembled to that unit, and resolving its names when
`x` is available keeps its meaning. -/
theorem shadowing_preserves_meaning :
    (emitSuite shadowing {}).1 ++ [.const .none, .bare .returnValue] = shadowingStream ∧
      (∀ x, .name .deleteName x ∉ shadowingStream) ∧ size shadowingStream < 4294967296 ∧
      Scope.StoredFirst ["x"] shadowingStream ∧
      assemble "shadowing" shadowingStream (.function "f" 1 []) = .ok shadowingUnit ∧
      ∃ d, assemble "shadowing" (resolveNames ["x"] shadowingStream).2 (.function "f" 1 ["x"]) =
          .ok d ∧
        ∀ fuel, Option.Rel (fun p q => p.1 = q.1 ∧ p.2.SameBut ⟨1⟩ q.2)
          (shadowingMachine.callWithNames fuel (shadowingFunction shadowingUnit) [("x", .int 5)])
          (shadowingMachine.callResult fuel (.function (shadowingFunction d)) [.int 5] []) := by
  have hstream : (emitSuite shadowing {}).1 ++ [.const .none, .bare .returnValue] =
      shadowingStream := rfl
  have hdelete (x : String) : .name .deleteName x ∉ shadowingStream := by
    simp [shadowingStream]
  have hsize : size shadowingStream < 4294967296 := by decide
  have hfirst : Scope.StoredFirst ["x"] shadowingStream := by
    intro x hx hnot
    have hx' : x ∈ ["len", "x"] := hx
    obtain rfl : x = "len" := by simpa [mem_singleton.not.1 hnot] using hx'
    exact ⟨shadowingStream.take 4, shadowingStream.drop 5, rfl, by simp [shadowingStream]⟩
  have hunit : assemble "shadowing" shadowingStream (.function "f" 1 []) = .ok shadowingUnit := by
    cbv
  obtain ⟨d, hd, hmeaning⟩ :=
    resolveNames_preserves_meaning (hstream ▸ .suite shadowing {}) hdelete hsize hfirst hunit
  have hclosed : shadowingMachine.memory.store.closed = true := by decide +kernel
  have hwithin : withinAll shadowingMachine.memory.store [.space ⟨0⟩, .int 5] = true := by
    decide +kernel
  exact ⟨hstream, hdelete, hsize, hfirst, hunit, d, hd, fun fuel => hmeaning shadowingMachine fuel
    (shadowingFunction d) [.int 5] rfl hclosed hwithin⟩

end Bytewright
