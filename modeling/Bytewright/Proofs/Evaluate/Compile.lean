import Bytewright.Proofs.Evaluate.Realize
import Bytewright.Proofs.Generator.Splice

/-!
# Compiled trees

A tuple of constants is compiled to one constant, which has the value that building the tuple gives.
-/

namespace Bytewright

open Assemble Eval List

variable {c : Code} {place : Label → Nat} {es : List Expr} {m m' : Memory} {α : Type} {env : Env}
  {fuel : Nat} {e : Expr}

/-! ### Several expressions -/

/-- The stream of the expression realizes its evaluation. -/
def Expr.Realized (c : Code) (place : Label → Nat) (e : Expr) : Prop :=
  ∀ ls, Realizes c place (e.emit ls).1 [] (fun env fuel => e.eval env fuel) fun v => [v]

theorem realizes_emitAll (hes : ∀ e ∈ es, e.Realized c place) (ls : Labels) :
    Realizes c place (emitAll es ls).1 [] (fun env fuel => evalAll env fuel es) List.reverse := by
  induction es generalizing ls with
  | nil =>
    rw [emitAll]
    exact (Realizes.nil [] List.reverse).congr fun env fuel m => by rw [evalAll]
  | cons e es ih =>
    rw [emitAll_cons]
    have hfirst := hes e mem_cons_self ls
    have hrest := ih (fun e he => hes e (mem_cons_of_mem _ he)) (e.emit ls).2
    have hcons (v : Value) := (hrest.frame [v]).map (v :: ·) fun vs => reverse_cons
    exact (hfirst.bind fun v _ => hcons v).congr fun env fuel m => by rw [evalAll]

theorem realizes_fixed {k : Const} {v : Value} (hk : ∀ s : Store, s.ofConst k = (v, s)) :
    Realizes c place [.const k] [] (fun _ _ => pure ()) fun _ => [v] := by
  refine .of_execute rfl fun n ⟨opcode, arg⟩ ⟨hop, hconst⟩ f m rest hf => ?_
  cases hop
  have hexecute : execute ⟨.loadConst, arg⟩ n ⟨{ f with stack := rest, ip := n + 1 }, m⟩ =
      .ok .next ⟨{ f with stack := v :: rest, ip := n + 1 }, m⟩ := by
    simp only [execute, Exec.frame, Bind.bind, EStateM.bind, hf, hconst, Exec.store, hk]
    rfl
  exact hexecute ▸ .ok () m

theorem realizes_emitKeywords {es : List (String × Expr)}
    (hes : ∀ p ∈ es, p.2.Realized c place) (ls : Labels) :
    Realizes c place (emitKeywords es ls).1 [] (fun env fuel => evalKeywords env fuel es)
      fun kwargs => (keywordValues kwargs).reverse := by
  induction es generalizing ls with
  | nil =>
    rw [emitKeywords]
    exact (Realizes.nil [] fun kwargs => (keywordValues kwargs).reverse).congr
      fun env fuel m => by rw [evalKeywords]
  | cons p es ih =>
    obtain ⟨x, e⟩ := p
    rw [emitKeywords_cons]
    have hvalue := hes (x, e) mem_cons_self ls
    have hrest := ih (fun p hp => hes p (mem_cons_of_mem _ hp)) (e.emit ls).2
    have hcons (v : Value) : Realizes c place (emitKeywords es (e.emit ls).2).1 [v, .str x] _
        fun kwargs => (keywordValues kwargs).reverse :=
      (hrest.frame [v, .str x]).map ((x, v) :: ·) fun kwargs => by simp [keywordValues]
    have hboth := (hvalue.frame [.str x]).bind fun v _ => hcons v
    refine ((realizes_fixed fun _ => rfl).bind fun _ _ => hboth).congr fun env fuel m => ?_
    rw [evalKeywords]
    rfl

theorem realizes_emitPairs {es : List (Expr × Expr)} (hkeys : ∀ p ∈ es, p.1.Realized c place)
    (hvalues : ∀ p ∈ es, p.2.Realized c place) (r : DictRef) (ls : Labels) :
    Realizes c place (emitPairs es ls).1 [.dict r] (fun env fuel => evalPairs env fuel r es)
      fun _ => [.dict r] := by
  induction es generalizing ls with
  | nil =>
    rw [emitPairs]
    exact (Realizes.nil () fun _ => [.dict r]).congr fun env fuel m => by rw [evalPairs]
  | cons p es ih =>
    obtain ⟨key, value⟩ := p
    rw [emitPairs_cons]
    have hvalue := hvalues (key, value) mem_cons_self ls
    have hkey := hkeys (key, value) mem_cons_self (value.emit ls).2
    have hrest := ih (fun p hp => hkeys p (mem_cons_of_mem _ hp))
      (fun p hp => hvalues p (mem_cons_of_mem _ hp)) (key.emit (value.emit ls).2).2
    have hstore (v k : Value) := (realizes_storeMap r k v).bind fun _ _ => hrest
    have hpair (v : Value) := (hkey.frame [v, .dict r]).bind fun k _ => hstore v k
    exact ((hvalue.frame [.dict r]).bind fun v _ => hpair v).congr
      fun env fuel m => by rw [evalPairs]

/-! ### How many values there are -/

theorem Eval.exists_of_bind {β : Type} {x : Eval α} {g : α → Eval β} {b : β}
    (h : (x >>= g) m = .ok b m') : ∃ a m₁, x m = .ok a m₁ ∧ g a m₁ = .ok b m' := by
  simp only [Bind.bind, EStateM.bind] at h
  cases hx : x m with
  | ok a m₁ =>
    rw [hx] at h
    exact ⟨a, m₁, rfl, h⟩
  | error halt m₁ =>
    rw [hx] at h
    cases h

theorem length_of_evalAll {vs : List Value} (h : evalAll env fuel es m = .ok vs m') :
    vs.length = es.length := by
  induction es generalizing m vs with
  | nil =>
    rw [evalAll] at h
    cases h
    rfl
  | cons e es ih =>
    rw [evalAll] at h
    obtain ⟨v, m₁, -, h⟩ := Eval.exists_of_bind h
    obtain ⟨vs, m₂, hvs, h⟩ := Eval.exists_of_bind h
    cases h
    rw [length_cons, length_cons, ih hvs]

theorem length_of_evalKeywords {es : List (String × Expr)} {kwargs : Keywords}
    (h : evalKeywords env fuel es m = .ok kwargs m') : kwargs.length = es.length := by
  induction es generalizing m kwargs with
  | nil =>
    rw [evalKeywords] at h
    cases h
    rfl
  | cons p es ih =>
    obtain ⟨x, e⟩ := p
    rw [evalKeywords] at h
    obtain ⟨v, m₁, -, h⟩ := Eval.exists_of_bind h
    obtain ⟨vs, m₂, hvs, h⟩ := Eval.exists_of_bind h
    cases h
    rw [length_cons, length_cons, ih hvs]

theorem size_emit_pos (e : Expr) (ls : Labels) : 0 < size (e.emit ls).1 := by
  have hpos {op : Op} (hmem : op ∈ (e.emit ls).1) (hop : op.isReal = true) :
      0 < size (e.emit ls).1 := countP_pos_iff.2 ⟨op, hmem, hop⟩
  cases e with
  | literal c | name x => exact hpos mem_cons_self rfl
  | tuple items =>
    rw [Expr.emit] at hpos ⊢
    cases hconst : constants? items with
    | some cs =>
      simp only [hconst] at hpos
      exact hpos mem_cons_self rfl
    | none =>
      simp only [hconst] at hpos
      exact hpos mem_concat_self rfl
  | dict pairs =>
    rw [Expr.emit] at hpos ⊢
    exact hpos mem_cons_self rfl
  | ifElse cond then_ else_ =>
    rw [Expr.emit] at hpos ⊢
    exact hpos (show .jump .popJumpIfFalse ls.fresh.1 ∈ _ by simp) rfl
  | _ =>
    rw [Expr.emit] at hpos ⊢
    exact hpos mem_concat_self rfl

theorem length_le_size_emitAll (es : List Expr) (ls : Labels) :
    es.length ≤ size (emitAll es ls).1 := by
  induction es generalizing ls with
  | nil => exact Nat.zero_le _
  | cons e es ih =>
    rw [emitAll_cons, size_append, length_cons]
    have hfirst := size_emit_pos e ls
    have hrest := ih (e.emit ls).2
    omega

/-! ### Expressions -/

theorem realizes_build (hc : c.Addressable) (hes : ∀ e ∈ es, e.Realized c place) (ls : Labels)
    {op : CountOp} {Y : List Value → Env → Nat → Eval Value}
    (hop : ∀ {count : UInt32} {vs : List Value}, count.toNat = vs.length →
      Realizes c place [.count op count] vs.reverse (Y vs) fun v => [v]) :
    Realizes c place ((emitAll es ls).1 ++ [.count op (UInt32.ofNat es.length)]) []
      (fun env fuel => evalAll env fuel es >>= fun vs => Y vs env fuel) fun v => [v] := by
  intro n hn
  have hlength : es.length < 4294967296 := by
    have hsize := hn.add_size_le
    rw [size_append] at hsize
    have hitems := length_le_size_emitAll es ls
    have hcode := hc.code
    omega
  refine (realizes_emitAll hes ls).bind (fun vs hvs => hop ?_) n hn
  obtain ⟨env, fuel, m, m', hvs⟩ := hvs
  rw [UInt32.toNat_ofNat_of_lt' hlength, length_of_evalAll hvs]

theorem Expr.Realized.operand (he : e.Realized c place) (ls : Labels) (more : List Value)
    {ops : Stream} {Y : Value → Env → Nat → Eval α} {out : α → List Value}
    (hops : ∀ v, Realizes c place ops (v :: more) (Y v) out) :
    Realizes c place ((e.emit ls).1 ++ ops) more
      (fun env fuel => e.eval env fuel >>= fun v => Y v env fuel) out :=
  ((he ls).frame more).bind fun v _ => hops v

theorem Expr.Realized.operands {e' : Expr} (he : e.Realized c place) (he' : e'.Realized c place)
    (ls : Labels) {ops : Stream} {Y : Value → Value → Env → Nat → Eval α} {out : α → List Value}
    (hops : ∀ a b, Realizes c place ops [b, a] (Y a b) out) :
    Realizes c place ((e.emit ls).1 ++ (e'.emit (e.emit ls).2).1 ++ ops) [] (fun env fuel => do
      let a ← e.eval env fuel
      let b ← e'.eval env fuel
      Y a b env fuel) out := by
  rw [append_assoc]
  exact he.operand ls [] fun a => he'.operand _ [a] fun b => hops a b

theorem Expr.Callable.realized (hc : c.Addressable) (he : e.Callable) : e.Realized c place := by
  induction he with (intro ls; rw [Expr.emit])
  | literal k => exact (realizes_const k).congr fun env fuel m => by rw [Expr.eval]
  | name x => exact (realizes_loadName x).congr fun env fuel m => by rw [Expr.eval]
  | member hobj attr ih =>
    exact (ih.operand ls [] fun o => realizes_loadAttr o attr).congr
      fun env fuel m => by rw [Expr.eval]
  | subscript hobj hkey ihobj ihkey =>
    exact (ihobj.operands ihkey ls realizes_binarySubscr).congr fun env fuel m => by rw [Expr.eval]
  | @call func args kwargs hargsLength hkwargsLength hfunc hargs hkwargs ihfunc ihargs ihkwargs =>
    let a := emitAll args (func.emit ls).2
    show Realizes c place ((func.emit ls).1 ++ a.1 ++ (emitKeywords kwargs a.2).1 ++ _) [] _ _
    rw [append_assoc, append_assoc]
    have hcall (f : Value) {vs : List Value} {kws : Keywords}
        (hvs : vs.length = args.length) (hkws : kws.length = kwargs.length) :
        Realizes c place [.call .callFunction (.ofNat args.length) (.ofNat kwargs.length)]
          ((keywordValues kws).reverse ++ (vs.reverse ++ [f]))
          (fun env fuel => Eval.call env fuel f vs kws) fun v => [v] :=
      realizes_call f vs kws
        ((UInt8.toNat_ofNat_of_lt' (show args.length < 256 by omega)).trans hvs.symm)
        ((UInt8.toNat_ofNat_of_lt' (show kwargs.length < 256 by omega)).trans hkws.symm)
    have hkeywords (f : Value) {vs : List Value} (hvs : vs.length = args.length) :=
      ((realizes_emitKeywords ihkwargs a.2).frame (vs.reverse ++ [f])).bind
        fun kws ⟨env, fuel, m, m', hkws⟩ => hcall f hvs (length_of_evalKeywords hkws)
    have hargs (f : Value) := ((realizes_emitAll ihargs (func.emit ls).2).frame [f]).bind
      fun vs ⟨env, fuel, m, m', hvs⟩ => hkeywords f (length_of_evalAll hvs)
    exact (ihfunc.operand ls [] hargs).congr fun env fuel m => by rw [Expr.eval]
  | @tuple items hitems ih =>
    cases hconst : constants? items with
    | some cs =>
      refine (realizes_const (.tuple cs)).congr fun env fuel m => ?_
      have hconstant : (Expr.tuple items).constant? = some (.tuple cs) := by
        rw [Expr.constant?, hconst]
        rfl
      rw [Expr.eval_of_constant? env fuel m _ _ hconstant]
      rfl
    | none =>
      exact (realizes_build hc ih ls realizes_buildTuple).congr fun env fuel m => by rw [Expr.eval]
  | @list items hitems ih =>
    exact (realizes_build hc ih ls realizes_buildList).congr fun env fuel m => by rw [Expr.eval]
  | @dict pairs hkeys hvalues ihkeys ihvalues =>
    have hpairs (r : DictRef) : Realizes c place (emitPairs pairs ls).1 [.dict r] _ fun v => [v] :=
      (realizes_emitPairs ihkeys ihvalues r ls).map (fun _ => Value.dict r) fun _ => rfl
    exact ((realizes_buildMap _).bind fun r _ => hpairs r).congr fun env fuel m => by rw [Expr.eval]
  | negate h ih =>
    exact (ih.operand ls [] realizes_unaryNegative).congr fun env fuel m => by rw [Expr.eval]
  | not h ih =>
    exact (ih.operand ls [] realizes_unaryNot).congr fun env fuel m => by rw [Expr.eval]
  | binary op hleft hright ihleft ihright =>
    exact (ihleft.operands ihright ls (realizes_arith op)).congr fun env fuel m => by rw [Expr.eval]
  | compare op hleft hright ihleft ihright =>
    exact (ihleft.operands ihright ls (realizes_compare op)).congr
      fun env fuel m => by rw [Expr.eval]
  | ifElse hcond hthen helse ihcond ihthen ihelse =>
    exact (Realizes.choice (ihcond _) (ihthen _) (ihelse _)).congr
      fun env fuel m => by rw [Expr.eval]

/-! ### Statements -/

theorem Target.Callable.realizes (hc : c.Addressable) {t : Target} (ht : t.Callable) (v : Value)
    (ls : Labels) :
    Realizes c place (t.emit ls).1 [v] (fun env fuel => t.assign env fuel v) fun _ => [] := by
  rcases t with x | ⟨obj, attr⟩ | ⟨obj, key⟩
  · exact realizes_storeName x v
  · rw [Target.emit]
    exact (ht.realized hc).operand ls [v] fun o => realizes_storeAttr attr o v
  · rw [Target.emit]
    show Realizes c place ((obj.emit ls).1 ++ (key.emit (obj.emit ls).2).1 ++ _) [v] _ _
    rw [append_assoc]
    exact (ht.1.realized hc).operand ls [v] fun o =>
      (ht.2.realized hc).operand (obj.emit ls).2 [o, v] fun k => realizes_storeSubscr o k v

theorem Action.Callable.realizes (hc : c.Addressable) {a : Action} (ha : a.Callable)
    (ls : Labels) :
    Realizes c place (a.emit ls).1 [] (fun env fuel => a.exec env fuel) fun _ => [] := by
  cases a with
  | expr e =>
    rw [Action.emit]
    exact (Expr.Callable.realized hc ha).operand ls [] realizes_popTop
  | assign target value =>
    rw [Action.emit]
    exact (ha.2.realized hc).operand ls [] fun v => ha.1.realizes hc v _
  | delete x => exact realizes_deleteName x
  | raise e =>
    rw [Action.emit]
    exact (Expr.Callable.realized hc ha).operand ls [] fun v => realizes_raise v _
  | pass => exact .nil () _

theorem realizes_emitSuite (hc : c.Addressable) {body : List Stmt} (hbody : ∀ s ∈ body, s.Callable)
    (ls : Labels) :
    Realizes c place (emitSuite body ls).1 [] (fun env fuel => execSuite env fuel body)
      fun _ => [] := by
  induction body generalizing ls with
  | nil => exact .nil () _
  | cons s body ih =>
    have hs : Realizes c place (s.action.emit ls).1 [] _ _ :=
      Action.Callable.realizes hc (hbody s mem_cons_self) ls
    have hrest := ih (fun s hs => hbody s (mem_cons_of_mem _ hs)) (s.action.emit ls).2
    exact (hs.bind fun _ _ => hrest).line s.line

end Bytewright
