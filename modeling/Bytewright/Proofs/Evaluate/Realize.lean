import Bytewright.Proofs.Evaluate.Carry

/-!
# Streams that do what evaluations do

Streams that realize evaluations are put one behind the other as evaluations are.
-/

namespace Bytewright

open Assemble List

variable {α β : Type}

/-- Wherever the unit carries the stream, it performs the evaluation. -/
def Realizes (c : Code) (place : Label → Nat) (ops : Stream) (ins : List Value)
    (X : Env → Nat → Eval α) (out : α → List Value) : Prop :=
  ∀ n, Carries c place n ops → Performs c n (n + size ops) ins X out

variable {c : Code} {place : Label → Nat} {ins : List Value} {op : Op}

/-! ### Composition -/

namespace Realizes

variable {a b : Stream} {X : Env → Nat → Eval α} {mid : α → List Value} {out : β → List Value}

theorem bind {Y : α → Env → Nat → Eval β} (hX : Realizes c place a ins X mid)
    (hY : ∀ x, Eval.Returns X x → Realizes c place b (mid x) (Y x) out) :
    Realizes c place (a ++ b) ins (fun env fuel => X env fuel >>= fun x => Y x env fuel) out := by
  intro n hn
  obtain ⟨ha, hb⟩ := carries_append.1 hn
  rw [size_append, ← Nat.add_assoc]
  exact (hX n ha).bind (fun x hx => hY x hx _ hb) (Nat.le_add_right _ _) (Nat.le_add_right _ _)

theorem frame (h : Realizes c place a ins X mid) (more : List Value) :
    Realizes c place a (ins ++ more) X fun x => mid x ++ more :=
  fun n hn => (h n hn).frame more

theorem nil (x : α) (out : α → List Value) :
    Realizes c place [] (out x) (fun _ _ => Pure.pure x) out :=
  fun n _ => .pure c n x out

section

variable (h : Realizes c place a ins X mid)
include h

theorem map (g : α → β) (hg : ∀ x, out (g x) = mid x) :
    Realizes c place a ins (fun env fuel => X env fuel >>= fun x => Pure.pure (g x)) out := by
  have hnil (x : α) : Realizes c place [] (mid x) (fun _ _ => Pure.pure (g x)) out := by
    rw [← hg x]
    exact nil (g x) out
  have hbind := h.bind fun x _ => hnil x
  rwa [append_nil] at hbind

theorem congr {X' : Env → Nat → Eval α}
    (hX : ∀ env fuel m, X env fuel m = X' env fuel m) : Realizes c place a ins X' mid :=
  fun n hn => (h n hn).congr hX

theorem line (l : UInt32) : Realizes c place (.line l :: a) ins X mid := by
  intro n hn
  rw [size_cons_of_not_isReal rfl]
  exact h n hn

end

theorem choice {cond t e : Stream} {elseLabel endLabel : Label} {C : Env → Nat → Eval Value}
    {Y N : Env → Nat → Eval β} (hcond : Realizes c place cond [] C fun v => [v])
    (ht : Realizes c place t [] Y out) (he : Realizes c place e [] N out) :
    Realizes c place (cond ++ [.jump .popJumpIfFalse elseLabel] ++ t ++
        [.jump .jumpForward endLabel, .mark elseLabel] ++ e ++ [.mark endLabel]) []
      (fun env fuel => do
        let v ← C env fuel
        if ← Eval.view fun s => .ok (s.truthy v) then Y env fuel else N env fuel) out := by
  intro n hn
  have hlength := hn.add_size_le
  have hsizes : size [.jump .popJumpIfFalse elseLabel] = 1 ∧
      size [.jump .jumpForward endLabel, .mark elseLabel] = 1 ∧ size [.mark endLabel] = 0 :=
    ⟨rfl, rfl, rfl⟩
  simp only [carries_append, size_append, hsizes, Nat.add_zero, ← Nat.add_assoc] at hn hlength ⊢
  obtain ⟨⟨⟨⟨⟨hc, ⟨i, hi, hop, hielse⟩, -⟩, hthen⟩, ⟨j, hj, hjop, hjend⟩, helse, -⟩, hother⟩, hend,
    -⟩ := hn
  rw [helse] at hielse
  rw [hend] at hjend
  have hjump (x : β) := Performs.jump hj hjop hjend hlength x out
  have hY := ((ht _ hthen).bind (fun x _ => hjump x) (Nat.le_add_right _ _) (by omega)).congr
    fun env fuel m => congrFun (bind_pure (Y env fuel)) m
  have hbranch (v : Value) :=
    Performs.branch (v := v) hi hop hielse (by omega) (by omega) hY (he _ hother)
  exact (hcond n hc).bind (fun v _ => hbranch v) (by omega) (by omega)

end Realizes

/-! ### Results of operations -/

section Results

variable {m : Memory}

theorem Eval.onStore_of_ok {x : Store → Except Failure (α × Store)} {a : α} {s : Store}
    (h : x m.store = .ok (a, s)) : Eval.onStore x m = .ok a { m with store := s } := by
  simp only [Eval.onStore, Eval.attempt, h]

theorem Eval.onStore_of_error {x : Store → Except Failure (α × Store)} {failure : Failure}
    (h : x m.store = .error failure) :
    Eval.onStore x m = .error (.raise (m.store.failed failure).1 [])
      { m with store := (m.store.failed failure).2 } := by
  simp only [Eval.onStore, Eval.attempt, h]

end Results

theorem Realizes.of_execute {X : Env → Eval α} {out : α → List Value} (hop : op.isReal = true)
    (h : ∀ (n : Nat) (i : Instruction), Denotes c place n i op →
      ∀ (f : Frame) (m : Memory) (rest : List Value), f.code = c →
        Gives { f with ip := n + 1 } rest out (X f.env m)
          (execute i n ⟨{ f with stack := ins ++ rest, ip := n + 1 }, m⟩)) :
    Realizes c place [op] ins (fun env _ => X env) out := by
  intro n hn
  obtain ⟨⟨i, hi, hdenotes⟩, -⟩ := (carries_cons_of_isReal hop).1 hn
  rw [size_cons_of_isReal hop]
  exact .of_execute hi (h n i hdenotes)

theorem Gives.of_update {f : Frame} {m : Memory} {rest : List Value} {out : α → List Value}
    {x : Store → Except Failure (α × Store)} {result : EStateM.Result Stop Moment Signal}
    (h : result = match x m.store with
      | .ok (a, s) => .ok .next ⟨{ f with stack := out a ++ rest }, { m with store := s }⟩
      | .error failure => Exec.fail failure ⟨{ f with stack := rest }, m⟩) :
    Gives f rest out (Eval.onStore x m) result := by
  rw [h]
  cases hx : x m.store with
  | ok p =>
    rw [Eval.onStore_of_ok hx]
    exact .ok p.1 _
  | error failure =>
    rw [Eval.onStore_of_error hx]
    exact .raise _ _

theorem Realizes.of_update {x : Env → Store → Except Failure (α × Store)} {out : α → List Value}
    (hop : op.isReal = true) (h : ∀ (n : Nat) (i : Instruction), Denotes c place n i op →
      ∀ (f : Frame) (m : Memory) (rest : List Value), f.code = c →
        execute i n ⟨{ f with stack := ins ++ rest, ip := n + 1 }, m⟩ =
          match x f.env m.store with
          | .ok (a, s) =>
            .ok .next ⟨{ f with stack := out a ++ rest, ip := n + 1 }, { m with store := s }⟩
          | .error failure => Exec.fail failure ⟨{ f with stack := rest, ip := n + 1 }, m⟩) :
    Realizes c place [op] ins (fun env _ => Eval.onStore (x env)) out :=
  .of_execute hop fun n i hi f m rest hf => .of_update (h n i hi f m rest hf)

theorem Realizes.of_settle {settled : Store → Bool} {x : Store → Except Failure (α × Store)}
    {out : α → List Value} (left : List Value) (hop : op.isReal = true)
    (h : ∀ (n : Nat) (i : Instruction), Denotes c place n i op →
      ∀ (f : Frame) (m : Memory) (rest : List Value),
        execute i n ⟨{ f with stack := ins ++ rest, ip := n + 1 }, m⟩ =
          if settled m.store then
            match x m.store with
            | .ok (a, s) =>
              .ok .next ⟨{ f with stack := out a ++ rest, ip := n + 1 }, { m with store := s }⟩
            | .error failure => Exec.fail failure ⟨{ f with stack := rest, ip := n + 1 }, m⟩
          else .error .crash ⟨{ f with stack := left ++ rest, ip := n + 1 }, m⟩) :
    Realizes c place [op] ins (fun _ _ => Eval.settling settled (Eval.onStore x)) out := by
  refine .of_execute hop fun n i hi f m rest hf => ?_
  rw [h n i hi f m rest, Eval.settling]
  split_ifs
  · exact .of_update rfl
  · exact .crash m left

/-! ### Operations -/

section Operations

open Eval Exec

theorem realizes_const (k : Const) :
    Realizes c place [.const k] [] (fun _ _ => onStore fun s => .ok (s.ofConst k))
      fun v => [v] := by
  refine .of_update rfl fun n ⟨opcode, arg⟩ ⟨hop, hk⟩ f m rest hf => ?_
  cases hop
  simp only [execute, frame, Bind.bind, EStateM.bind, hf, hk, store]
  rfl

theorem realizes_loadName (x : String) :
    Realizes c place [.name .loadName x] [] (fun env _ => view fun s => env.lookup s x)
      fun v => [v] := by
  refine .of_update rfl fun n ⟨opcode, arg⟩ ⟨hop, hx⟩ f m rest hf => ?_
  cases hop
  simp only [execute, frame, Bind.bind, EStateM.bind, hf, hx, onName, store, Env.lookup, Frame.env]
  cases (m.store.scope f.names).get? x with
  | some v => rfl
  | none =>
    simp only [EStateM.bind]
    cases lookupGlobal m.store f.globals x <;> rfl

theorem realizes_loadAttr (o : Value) (x : String) :
    Realizes c place [.name .loadAttr x] [o] (fun _ _ => onStore fun s => s.attr o x)
      fun v => [v] := by
  refine .of_update rfl fun n ⟨opcode, arg⟩ ⟨hop, hx⟩ f m rest hf => ?_
  cases hop
  simp only [execute, frame, Bind.bind, EStateM.bind, hf, hx, onName, store, singleton_append, pop]
  cases m.store.attr o x <;> rfl

theorem realizes_binarySubscr (o k : Value) :
    Realizes c place [.bare .binarySubscr] [k, o]
      (fun _ _ => settling (·.itemSettles o k) (view fun s => s.item o k)) fun v => [v] := by
  refine .of_settle [] rfl fun n ⟨opcode, arg⟩ hop f m rest => ?_
  cases hop
  simp only [execute, onBare, Bind.bind, EStateM.bind, store, pop, cons_append, settle]
  cases m.store.itemSettles o k with
  | true => cases m.store.item o k <;> rfl
  | false => rfl

variable {count : UInt32} {items : List Value}

theorem realizes_buildTuple (hcount : count.toNat = items.length) :
    Realizes c place [.count .buildTuple count] items.reverse
      (fun _ _ => pure (.tuple items)) fun v => [v] := by
  refine .of_execute rfl fun n i hi f m rest hf => ?_
  cases hi
  have hpop := popMany_reverse (f := { f with ip := n + 1 }) (m := m) items rest hcount
  have hexecute : execute ⟨.count .buildTuple, count⟩ n
      ⟨{ f with stack := items.reverse ++ rest, ip := n + 1 }, m⟩ =
      .ok .next ⟨{ f with stack := .tuple items :: rest, ip := n + 1 }, m⟩ := by
    simp only [execute, onCount, Bind.bind, EStateM.bind, hpop]
    rfl
  rw [hexecute]
  exact .ok _ _

theorem realizes_buildList (hcount : count.toNat = items.length) :
    Realizes c place [.count .buildList count] items.reverse
      (fun _ _ => onStore fun s => .ok (s.newList items)) fun v => [v] := by
  refine .of_update rfl fun n i hi f m rest hf => ?_
  cases hi
  have hpop := popMany_reverse (f := { f with ip := n + 1 }) (m := m) items rest hcount
  simp only [execute, onCount, Bind.bind, EStateM.bind, hpop, store]
  rfl

theorem realizes_buildMap (count : UInt32) :
    Realizes c place [.count .buildMap count] []
      (fun _ _ => onStore fun s => .ok (⟨s.dicts.size⟩, (s.newDict []).2))
      fun r => [.dict r] := by
  refine .of_update rfl fun n i hi f m rest hf => ?_
  cases hi
  rfl

theorem realizes_storeMap (r : DictRef) (k v : Value) :
    Realizes c place [.bare .storeMap] [k, v, .dict r]
      (fun _ _ => settling (·.pairSettles r k) (onStore fun s => .ok ((), s.setPair r k v)))
      fun _ => [.dict r] := by
  refine .of_settle [.dict r] rfl fun n ⟨opcode, arg⟩ hop f m rest => ?_
  cases hop
  simp only [execute, onBare, Bind.bind, EStateM.bind, frame, store, cons_append, pop, settle]
  cases m.store.pairSettles r k <;> rfl

theorem realizes_unaryNegative (v : Value) :
    Realizes c place [.bare .unaryNegative] [v] (fun _ _ => view fun _ => v.negate)
      fun v => [v] := by
  refine .of_update rfl fun n ⟨opcode, arg⟩ hop f m rest hf => ?_
  cases hop
  simp only [execute, onBare, Bind.bind, EStateM.bind, pop, cons_append]
  cases v.negate <;> rfl

theorem realizes_unaryNot (v : Value) :
    Realizes c place [.bare .unaryNot] [v] (fun _ _ => view fun s => .ok (.bool !s.truthy v))
      fun v => [v] := by
  refine .of_update rfl fun n ⟨opcode, arg⟩ hop f m rest hf => ?_
  cases hop
  rfl

theorem realizes_arith (op : ArithOp) (a b : Value) :
    Realizes c place [.arith op] [b, a] (fun _ _ => onStore fun s => s.arith op a b)
      fun v => [v] := by
  refine .of_update rfl fun n ⟨opcode, arg⟩ ⟨hop, hindex⟩ f m rest hf => ?_
  cases hop
  simp only [execute, hindex, Bind.bind, EStateM.bind, store, pop, cons_append]
  cases m.store.arith op a b <;> rfl

theorem realizes_compare (op : CompareOp) (a b : Value) :
    Realizes c place [.compare op] [b, a]
      (fun _ _ => settling (·.compareSettles op a b)
        (onStore fun s => (s.compare op a b).map fun holds => (.bool holds, s)))
      fun v => [v] := by
  refine .of_settle [] rfl fun n ⟨opcode, arg⟩ ⟨hop, hindex⟩ f m rest => ?_
  cases hop
  simp only [execute, hindex, Bind.bind, EStateM.bind, store, pop, cons_append, settle]
  cases m.store.compareSettles op a b with
  | true => cases m.store.compare op a b <;> rfl
  | false => rfl

theorem realizes_call (func : Value) (args : List Value) (kwargs : Keywords)
    {a k : UInt8} (ha : a.toNat = args.length) (hk : k.toNat = kwargs.length) :
    Realizes c place [.call .callFunction a k]
      ((keywordValues kwargs).reverse ++ (args.reverse ++ [func]))
      (fun env fuel => call env fuel func args kwargs) fun v => [v] := by
  intro n hn
  obtain ⟨⟨i, hi, hop, hspec⟩, -⟩ := (carries_cons_of_isReal rfl).1 hn
  exact .call hi hop hspec ha hk

theorem realizes_popTop (v : Value) :
    Realizes c place [.bare .popTop] [v] (fun _ _ => pure ()) fun _ => [] := by
  refine .of_execute rfl fun n ⟨opcode, arg⟩ hop f m rest hf => ?_
  cases hop
  exact .ok () m

theorem realizes_storeName (x : String) (v : Value) :
    Realizes c place [.name .storeName x] [v]
      (fun env _ => onStore fun s => .ok ((), s.bindName env.names x v)) fun _ => [] := by
  refine .of_update rfl fun n ⟨opcode, arg⟩ ⟨hop, hx⟩ f m rest hf => ?_
  cases hop
  simp only [execute, frame, Bind.bind, EStateM.bind, hf, hx, onName, store, singleton_append, pop]
  rfl

theorem realizes_storeAttr (x : String) (o v : Value) :
    Realizes c place [.name .storeAttr x] [o, v]
      (fun _ _ => onStore fun s => (s.setAttr o x v).map ((), ·)) fun _ => [] := by
  refine .of_update rfl fun n ⟨opcode, arg⟩ ⟨hop, hx⟩ f m rest hf => ?_
  cases hop
  simp only [execute, frame, Bind.bind, EStateM.bind, hf, hx, onName, store, cons_append, pop]
  cases m.store.setAttr o x v <;> rfl

theorem realizes_storeSubscr (o k v : Value) :
    Realizes c place [.bare .storeSubscr] [k, o, v]
      (fun _ _ => settling (·.setItemSettles o k)
        (onStore fun s => (s.setItem o k v).map ((), ·))) fun _ => [] := by
  refine .of_settle [] rfl fun n ⟨opcode, arg⟩ hop f m rest => ?_
  cases hop
  simp only [execute, onBare, Bind.bind, EStateM.bind, store, cons_append, pop, settle]
  cases m.store.setItemSettles o k with
  | true => cases m.store.setItem o k v <;> rfl
  | false => rfl

theorem realizes_deleteName (x : String) :
    Realizes c place [.name .deleteName x] []
      (fun env _ => onStore fun s => (env.unbind s x).map ((), ·)) fun _ => [] := by
  refine .of_update rfl fun n ⟨opcode, arg⟩ ⟨hop, hx⟩ f m rest hf => ?_
  cases hop
  simp only [execute, frame, Bind.bind, EStateM.bind, hf, hx, onName, deleteFrom, store,
    Env.unbind, Frame.env]
  cases (m.store.scope f.names).get? x <;> rfl

theorem realizes_raise (v : Value) (out : Unit → List Value) :
    Realizes c place [.count .raiseVarargs 1] [v] (fun _ _ => do
      let e ← onStore fun s => s.normalize v .none
      Eval.raise e) out := by
  refine .of_execute rfl fun n i hi f m rest hf => ?_
  cases hi
  have hexecute : execute ⟨.count .raiseVarargs, 1⟩ n
      ⟨{ f with stack := [v] ++ rest, ip := n + 1 }, m⟩ =
        (orFailWith (m.store.normalize v .none) >>= fun e => Exec.raise e)
          ⟨{ f with stack := rest, ip := n + 1 }, m⟩ := rfl
  rw [hexecute]
  cases h : m.store.normalize v .none with
  | ok p =>
    simp only [Bind.bind, EStateM.bind, onStore_of_ok (x := fun s => s.normalize v .none) h]
    exact .raise p.1 _
  | error failure =>
    simp only [Bind.bind, EStateM.bind, onStore_of_error (x := fun s => s.normalize v .none) h]
    exact .raise _ _

end Operations

end Bytewright
