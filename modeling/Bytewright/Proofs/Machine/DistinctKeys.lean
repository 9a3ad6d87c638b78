import Bytewright.Proofs.Machine.Handler
import Bytewright.Proofs.Machine.Maps

/-!
# Keys of maps

Setting a key of a map looks for it first.  But the surplus of keyword arguments is collected as it
comes: a keyword that names no parameter and is given twice becomes a key twice.

Lists or maps as keys are left out, since they may become equal later.
-/

namespace Bytewright

open List

/-! ### Plain keys -/

def Value.isPlain : Value → Bool
  | .none | .bool _ | .int _ | .str _ => true
  | _ => false

variable {s s' : Store} {g : Function} {args : List Value} {kwargs : Keywords}
  {fuel : Nat} {o : Outcome}

theorem Store.equals_congr {a : Value} (ha : a.isPlain = true) (s t : Store) (b : Value) :
    s.equals a b = t.equals a b := by
  cases a with
  | none | bool | int | str => simp only [equals, equalsUpTo, equalsBy]
  | _ => cases ha

theorem Store.equals_str (s : Store) (x y : String) : s.equals (.str x) (.str y) = (x == y) := by
  simp only [equals, equalsUpTo, equalsBy]

/-- Of plain keys, no two are equal. -/
def Store.Distinct (s : Store) (keys : List Value) : Prop :=
  (∀ key ∈ keys, key.isPlain = true) → keys.Pairwise fun a b => s.equals a b = false

/-- No map has a key twice, if its keys are plain. -/
def Store.DistinctKeys (s : Store) : Prop := ∀ pairs ∈ s.dicts, s.Distinct (pairs.map Prod.fst)

theorem Store.Distinct.congr {keys : List Value} (h : s.Distinct keys) (t : Store) :
    t.Distinct keys := fun hplain =>
  (h hplain).imp_of_mem fun ha _ hab => (Store.equals_congr (hplain _ ha) t s _).trans hab

theorem Store.DistinctKeys.of_dicts_eq (hs : s.DistinctKeys) (h : s'.dicts = s.dicts) :
    s'.DistinctKeys := fun pairs hpairs =>
  (hs pairs (h ▸ hpairs)).congr s'

/-! ### Setting keys -/

theorem keys_insertPair (same : Value → Value → Bool) (key v : Value)
    (pairs : List (Value × Value)) :
    (insertPair same key v pairs).map Prod.fst =
      if pairs.any fun p => same p.1 key then pairs.map Prod.fst
      else pairs.map Prod.fst ++ [key] := by
  induction pairs with
  | nil => rfl
  | cons p pairs ih =>
    rw [insertPair, any_cons]
    cases hsame : same p.1 key with
    | true => rfl
    | false =>
      simp only [Bool.false_eq_true, if_false, Bool.false_or, map_cons, ih]
      split_ifs <;> rfl

theorem Store.Distinct.insertPair {pairs : List (Value × Value)}
    (h : s.Distinct (pairs.map Prod.fst)) (key v : Value) :
    s.Distinct ((insertPair s.equals key v pairs).map Prod.fst) := by
  rw [keys_insertPair]
  split_ifs with hany
  · exact h
  · intro hplain
    refine pairwise_append.2 ⟨h fun k hk => hplain k (mem_append_left _ hk),
      pairwise_singleton _ _, fun k hk l hl => ?_⟩
    obtain rfl := mem_singleton.1 hl
    obtain ⟨p, hp, rfl⟩ := mem_map.1 hk
    have hnot := hany
    simp only [any_eq_true, not_exists, not_and, Bool.not_eq_true] at hnot
    exact hnot p hp

theorem MapEdit.distinctKeys (h : MapEdit s.dicts s'.dicts) (hs : s.DistinctKeys) :
    s'.DistinctKeys := by
  intro pairs hpairs
  generalize s'.dicts = maps at h hpairs
  cases h with
  | leave => exact (hs pairs hpairs).congr s'
  | build =>
    rcases Array.mem_push.1 hpairs with hmem | rfl
    · exact (hs pairs hmem).congr s'
    · exact fun _ => .nil
  | insert t i key v =>
    have hold : t.Distinct ((s.dicts.getD i []).map Prod.fst) := by
      rw [Array.getD_eq_getD_getElem?]
      cases hi : s.dicts[i]? with
      | none => exact fun _ => .nil
      | some old => exact (hs old (Array.mem_of_getElem? hi)).congr t
    rcases Array.mem_or_eq_of_mem_setIfInBounds hpairs with hmem | rfl
    · exact (hs pairs hmem).congr s'
    · exact (hold.insertPair key v).congr s'

/-! ### Surplus of keyword arguments -/

theorem Store.distinct_str_iff (s : Store) (kwargs : Keywords) :
    s.Distinct ((kwargs.map fun p => (Value.str p.1, p.2)).map Prod.fst) ↔
      (kwargs.map Prod.fst).Nodup := by
  have hplain : ∀ key ∈ (kwargs.map fun p => (Value.str p.1, p.2)).map Prod.fst,
      key.isPlain = true := by
    simp only [map_map, mem_map]
    rintro _ ⟨p, -, rfl⟩
    rfl
  rw [Distinct, forall_prop_of_true hplain, map_map, List.Nodup, pairwise_map, pairwise_map]
  simp only [Function.comp_apply, equals_str, beq_eq_false_iff_ne]

/-- The call binds, with a keyword twice among the surplus ones. -/
def FunctionOf.RepeatsKeyword (g : Function) (args : List Value) (kwargs : Keywords) : Prop :=
  (∃ s bound, g.bind args kwargs s = .ok bound) ∧ g.code.takesExtra = true ∧
    ¬((g.code.surplus kwargs).map Prod.fst).Nodup

theorem FunctionOf.exists_bind {bound : Frame × Store} (h : g.bind args kwargs s = .ok bound)
    (t : Store) :
    ∃ f t', g.bind args kwargs t = .ok (f, t') := by
  unfold FunctionOf.bind at h ⊢
  dsimp only at h ⊢
  split_ifs at h ⊢
  cases hb : bindArguments g.code g.defaults args kwargs with
  | ok b => exact ⟨_, _, rfl⟩
  | error e =>
    rw [hb] at h
    cases h

theorem FunctionOf.distinctKeys_iff_of_bind {f : Frame} (hs : s.DistinctKeys)
    (h : g.bind args kwargs s = .ok (f, s')) : s'.DistinctKeys ↔ ¬g.RepeatsKeyword args kwargs := by
  have hdicts := dicts_of_bind h
  have hrepeats : g.RepeatsKeyword args kwargs ↔ g.code.takesExtra = true ∧
      ¬((g.code.surplus kwargs).map Prod.fst).Nodup := and_iff_right ⟨s, _, h⟩
  rw [hrepeats]
  cases hextra : g.code.takesExtra with
  | false =>
    rw [hextra] at hdicts
    simpa using hs.of_dicts_eq hdicts
  | true =>
    rw [hextra, if_pos rfl] at hdicts
    simp only [true_and, not_not, ← s'.distinct_str_iff]
    constructor
    · intro hdistinct
      exact hdistinct _ (hdicts ▸ Array.mem_push_self)
    · intro hnew pairs hpairs
      rw [hdicts] at hpairs
      rcases Array.mem_push.1 hpairs with hmem | rfl
      · exact (hs pairs hmem).congr s'
      · exact hnew

/-! ### One instruction -/

theorem Exec.callWith_of_bind {m : Moment} {callee : Frame}
    (h : g.bind args kwargs m.memory.store = .ok (callee, s)) :
    callWith (.function g) args kwargs m =
      .ok (.call callee) { m with memory := { m.memory with store := s } } := by
  rw [callWith_function]
  simp only [Bind.bind, EStateM.bind, store, h]
  rfl

def Progress.memory : Progress → Memory
  | .running r => r.memory
  | .ended _ m => m

namespace Run

/-- The next instruction calls a function with a surplus keyword twice. -/
def RepeatsKeyword (r : Run) : Prop :=
  ∃ ins op g args kwargs m, r.frame.code.code[r.frame.ip]? = some ins ∧ ins.opcode = .call op ∧
    Exec.operands op ins.arg ⟨r.frame.ahead, r.memory⟩ = .ok (.function g, args, kwargs) m ∧
    g.RepeatsKeyword args kwargs

variable {r r' : Run} {limits : Limits} {ins : Instruction}

theorem execute_call {op : CallOp} (hop : ins.opcode = .call op) (index : Nat) :
    execute ins index = Exec.operands op ins.arg >>= fun p => Exec.callWith p.1 p.2.1 p.2.2 := by
  rw [← Exec.onCall_eq]
  simp only [execute, hop]

open Exec in
theorem distinctKeys_execute (hs : r.memory.store.DistinctKeys) (hnot : ¬r.RepeatsKeyword)
    (hi : r.frame.code.code[r.frame.ip]? = some ins) :
    Ends (execute ins r.frame.ip) ⟨r.frame.ahead, r.memory⟩
      (fun _ m => m.memory.store.DistinctKeys) (fun _ m => m.memory.store.DistinctKeys) := by
  by_cases hcall : ∃ op, ins.opcode = .call op
  · obtain ⟨op, hop⟩ := hcall
    have hoperands := (built_operands op ins.arg).leavesMaps ⟨r.frame.ahead, r.memory⟩
    rw [execute_call hop, ends_bind]
    rw [ends_iff] at hoperands ⊢
    refine ⟨?_, fun stop m hm => hs.of_dicts_eq (hoperands.2 stop m hm)⟩
    rintro ⟨f, args, kwargs⟩ m hm
    have hsm := hs.of_dicts_eq (hoperands.1 _ m hm)
    by_cases hf : ∃ g, f = .function g
    · obtain ⟨g, rfl⟩ := hf
      rw [callWith_function, ends_bind, ends_store]
      cases hbind : g.bind args kwargs m.memory.store with
      | ok bound =>
        exact (FunctionOf.distinctKeys_iff_of_bind hsm hbind).2 fun hrepeats =>
          hnot ⟨ins, op, g, args, kwargs, m, hi, hop, hm, hrepeats⟩
      | error e =>
        cases e with
        | inl failure => exact hsm.of_dicts_eq rfl
        | inr cause => exact hsm
    · exact (editsMaps_callWith (fun g hg => hf ⟨g, hg⟩) args kwargs m).mono
        (fun _ _ h => h.distinctKeys hsm) (fun _ _ h => h.distinctKeys hsm)
  · exact (execute_editsMaps (fun op hop => hcall ⟨op, hop⟩) _ _).mono
      (fun _ _ h => h.distinctKeys hs) (fun _ _ h => h.distinctKeys hs)

theorem memory_leave (r : Run) (v : Value) : (r.leave v).memory = r.memory := by
  unfold leave
  cases r.callers <;> rfl

theorem memory_enter (limits : Limits) (r : Run) (callee : Frame) :
    (r.enter limits callee).memory = r.memory := by
  unfold enter
  split_ifs <;> rfl

theorem dicts_unwind (e : Exception) (steps : Nat) (m : Memory) (frame : Frame)
    (callers : List Frame) (index : Nat) (entries : List TraceEntry) (again : Bool) :
    (unwind e steps m frame callers index entries again).memory.store.dicts = m.store.dicts := by
  induction callers generalizing frame index entries again with
  | nil =>
    rw [unwind]
    dsimp only
    split <;> rfl
  | cons caller callers ih =>
    rw [unwind]
    dsimp only
    split
    · rfl
    · exact ih _ _ _ _

variable (hs : r.memory.store.DistinctKeys)
include hs

theorem distinctKeys_advance (hnot : ¬r.RepeatsKeyword)
    (limits : Limits) : (r.advance limits).memory.store.DistinctKeys := by
  unfold advance
  dsimp only
  split
  · exact hs
  · next ins hi =>
    split
    · exact hs
    · have hexecute := distinctKeys_execute hs hnot hi
      rw [Exec.ends_iff] at hexecute
      split
      · next signal m hm =>
        have hsm := hexecute.1 signal m hm
        cases signal with
        | next => exact hsm
        | ret v => exact (memory_leave _ v).symm ▸ hsm
        | call callee => exact (memory_enter limits _ callee).symm ▸ hsm
      · next e entries again m hm =>
        exact (hexecute.2 _ m hm).of_dicts_eq (dicts_unwind ..)
      · next cause m hm => exact hexecute.2 _ m hm
      · next m hm => exact hexecute.2 _ m hm

theorem not_distinctKeys_of_step (hrepeats : r.RepeatsKeyword)
    (hstep : Step limits r r') : ¬r'.memory.store.DistinctKeys := by
  obtain ⟨ins, op, g, args, kwargs, m, hi, hop, hm, hg⟩ := hrepeats
  have hsm : m.memory.store.DistinctKeys :=
    hs.of_dicts_eq ((Exec.ends_iff.1 ((Exec.built_operands op ins.arg).leavesMaps _)).1 _ m hm)
  obtain ⟨⟨s, bound, hbound⟩, -⟩ := id hg
  obtain ⟨callee, t, hbind⟩ := FunctionOf.exists_bind hbound m.memory.store
  have hexecute : execute ins r.frame.ip ⟨r.frame.ahead, r.memory⟩ =
      .ok (.call callee) { m with memory := { m.memory with store := t } } := by
    rw [execute_call hop]
    change EStateM.bind _ _ _ = _
    rw [EStateM.bind, hm]
    exact Exec.callWith_of_bind hbind
  have hmemory : r'.memory = { m.memory with store := t } := by
    unfold Step advance at hstep
    simp only [hi] at hstep
    split at hstep
    · cases hstep
    · rw [← Frame.ahead, hexecute] at hstep
      have hentered := congrArg Progress.memory hstep
      exact hentered.symm.trans (memory_enter ..)
  rw [hmemory]
  exact fun hdistinct => (FunctionOf.distinctKeys_iff_of_bind hsm hbind).1 hdistinct hg

theorem distinctKeys_iff_of_step (hstep : Step limits r r') :
    r'.memory.store.DistinctKeys ↔ ¬r.RepeatsKeyword := by
  refine ⟨fun hs' hrepeats => not_distinctKeys_of_step hs hrepeats hstep hs', fun hnot => ?_⟩
  have hmemory := distinctKeys_advance hs hnot limits
  rwa [show r.advance limits = .running r' from hstep] at hmemory

/-! ### Runs -/

theorem distinctKeys_iff_of_isChain {rs : List Run} (hsteps : (r :: rs).IsChain (Step limits)) :
    (∀ r' ∈ r :: rs, r'.memory.store.DistinctKeys) ↔
      ∀ r' ∈ (r :: rs).dropLast, ¬r'.RepeatsKeyword := by
  induction rs generalizing r with
  | nil => simpa using hs
  | cons next rs ih =>
    obtain ⟨hstep, hsteps⟩ := isChain_cons_cons.1 hsteps
    have hnext := distinctKeys_iff_of_step hs hstep
    rw [forall_mem_cons (l := next :: rs), dropLast_cons_cons,
      forall_mem_cons (l := (next :: rs).dropLast), ← hnext]
    constructor
    · rintro ⟨-, hall⟩
      have hnext := hall next (mem_cons_self ..)
      exact ⟨hnext, (ih hnext hsteps).1 hall⟩
    · rintro ⟨hnext, hall⟩
      exact ⟨hs, (ih hnext hsteps).2 hall⟩

theorem distinctKeys_go {m : Memory}
    (hnot : ∀ r', Relation.ReflTransGen (Step limits) r r' → ¬r'.RepeatsKeyword)
    (hgo : go limits fuel r = some (o, m)) : m.store.DistinctKeys := by
  induction fuel generalizing r with
  | zero => cases hgo
  | succ fuel ih =>
    have hadvance := distinctKeys_advance hs (hnot r .refl) limits
    rw [go] at hgo
    cases hprogress : r.advance limits with
    | running next =>
      rw [hprogress] at hgo hadvance
      exact ih hadvance (fun r' hr' => hnot r' (.head hprogress hr')) hgo
    | ended o' m' =>
      rw [hprogress] at hgo hadvance
      cases hgo
      exact hadvance

end Run

/-- This call, or one made within it, repeats a surplus keyword. -/
def Machine.RepeatsKeyword (m : Machine) (f : Value) (args : List Value)
    (kwargs : Keywords) : Prop :=
  ∃ g, f = .function g ∧ (g.RepeatsKeyword args kwargs ∨
    ∃ frame store r, g.bind args kwargs m.memory.store = .ok (frame, store) ∧
      Relation.ReflTransGen (Run.Step m.limits) { frame, memory := { m.memory with store } } r ∧
      r.RepeatsKeyword)

theorem Machine.distinctKeys_callResult {m : Machine} {f : Value} {memory : Memory}
    (hm : m.memory.store.DistinctKeys) (hnot : ¬m.RepeatsKeyword f args kwargs)
    (hcall : m.callResult fuel f args kwargs = some (o, memory)) : memory.store.DistinctKeys := by
  by_cases hf : ∃ g, f = .function g
  · obtain ⟨g, rfl⟩ := hf
    unfold callResult at hcall
    dsimp only at hcall
    cases hbind : g.bind args kwargs m.memory.store with
    | ok bound =>
      obtain ⟨frame, store⟩ := bound
      rw [hbind] at hcall
      dsimp only at hcall
      split_ifs at hcall
      · cases hcall
        exact hm
      · have hstore := (FunctionOf.distinctKeys_iff_of_bind hm hbind).2 fun hg =>
          hnot ⟨g, rfl, .inl hg⟩
        exact Run.distinctKeys_go hstore (fun r hr hrepeats =>
          hnot ⟨g, rfl, .inr ⟨frame, store, r, hbind, hr, hrepeats⟩⟩) hcall
    | error e =>
      rw [hbind] at hcall
      cases e <;> cases hcall
      · exact hm.of_dicts_eq rfl
      · exact hm
  · have hedit := Exec.mapEdit_callValue m.globals f args kwargs m.memory
    rw [m.callResult_of_other fuel args kwargs fun g hg => hf ⟨g, hg⟩] at hcall
    split at hcall
    all_goals
      next hvalue =>
        rw [hvalue] at hedit
        cases hcall
        exact (hedit.distinctKeys hm).of_dicts_eq rfl

/-- Keys that are `None`, truth values, integers and texts stay distinct in every map, exactly as
long as no call collects a keyword twice.  This holds of the moments of every run, of the start of a
call, and of what a call leaves in the end. -/
theorem keys_distinct_unless_keyword_repeated (args : List Value)
    (kwargs : Keywords) :
    (∀ (limits : Limits) (r : Run) (rs : List Run), r.memory.store.DistinctKeys →
      (r :: rs).IsChain (Run.Step limits) →
      ((∀ r' ∈ r :: rs, r'.memory.store.DistinctKeys) ↔
        ∀ r' ∈ (r :: rs).dropLast, ¬r'.RepeatsKeyword)) ∧
    (∀ (g : Function) (s s' : Store) (frame : Frame), s.DistinctKeys →
      g.bind args kwargs s = .ok (frame, s') →
      (s'.DistinctKeys ↔ ¬g.RepeatsKeyword args kwargs)) ∧
    ∀ (m : Machine) (fuel : Nat) (f : Value) (o : Outcome) (memory : Memory),
      m.memory.store.DistinctKeys →
      m.callResult fuel f args kwargs = some (o, memory) → ¬m.RepeatsKeyword f args kwargs →
      memory.store.DistinctKeys :=
  ⟨fun _ _ _ hs hsteps => Run.distinctKeys_iff_of_isChain hs hsteps,
    fun _ _ _ _ hs hbind => FunctionOf.distinctKeys_iff_of_bind hs hbind,
    fun _ _ _ _ _ hm hcall hnot => Machine.distinctKeys_callResult hm hnot hcall⟩

def collecting : Function where
  id := 0
  code :=
    { numLocals := 1
      stackSize := 1
      flags := .varKeywords
      code := [⟨.name .loadFast, 0⟩, ⟨.bare .returnValue, 0⟩]
      varNames := ["kw"]
      fileName := "<raw>"
      name := "gather"
      firstLine := 0 }
  defaults := []
  globals := ⟨0⟩
  closure := []

theorem distinctKeys_empty : Store.DistinctKeys { scopes := #[[]] } := nofun

/-- A keyword that is given twice is a key twice. -/
theorem collecting_repeats_key :
    ∃ memory, ({} : Machine).memory.store.DistinctKeys ∧
      ({} : Machine).callResult 2 (.function collecting) [] [("x", .int 1), ("x", .int 2)] =
        some (.value (.dict ⟨0⟩), memory) ∧
      memory.store.dict ⟨0⟩ = [(.str "x", .int 1), (.str "x", .int 2)] ∧
      ¬memory.store.DistinctKeys := by
  let pairs : List (Value × Value) := [(.str "x", .int 1), (.str "x", .int 2)]
  refine ⟨{ store := { scopes := #[[]], dicts := #[pairs] } }, distinctKeys_empty, rfl, rfl,
    fun hdistinct => ?_⟩
  have hkeys := (Store.distinct_str_iff _ [("x", .int 1), ("x", .int 2)]).1
    (hdistinct pairs (Array.mem_singleton.2 rfl))
  exact absurd hkeys (by decide)

def collectingRun (ip : Nat) (stack : List Value) : Run where
  frame :=
    { code := collecting.code
      fast := [some (.dict ⟨0⟩)]
      names := ⟨0⟩
      globals := ⟨0⟩
      closure := []
      stack
      ip }
  steps := ip
  memory :=
    { store := { scopes := #[[]], dicts := #[[(.str "x", .int 1), (.str "y", .int 2)]] } }

/-- Keywords that differ are keys that differ, when the function is entered and after that. -/
theorem collecting_keeps_keys_distinct :
    ∀ r ∈ [collectingRun 0 [], collectingRun 1 [.dict ⟨0⟩]], r.memory.store.DistinctKeys := by
  have hstart : (collectingRun 0 []).memory.store.DistinctKeys := by
    refine ((keys_distinct_unless_keyword_repeated [] [("x", .int 1), ("y", .int 2)]).2.1
      collecting _ _ _ distinctKeys_empty rfl).2 fun hrepeats => ?_
    exact hrepeats.2.2 (by decide)
  refine ((keys_distinct_unless_keyword_repeated [] []).1 {} _ _ hstart
    (.cons_cons rfl (.singleton _))).2 ?_
  rintro r hr ⟨ins, op, g, args, kwargs, m, hi, hop, -⟩
  obtain rfl := List.mem_singleton.1 hr
  obtain rfl : ins = _ := (Option.some.inj hi).symm
  cases hop

end Bytewright
