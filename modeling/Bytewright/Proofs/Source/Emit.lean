import Bytewright.Source.Compile
import Bytewright.Proofs.Shape.Piece
import Bytewright.Proofs.Source.CallArity

/-!
# Emitted streams are pieces

The counts of tuples and lists have four bytes, so this is said of streams with fewer instructions
than four bytes count.
-/

namespace Bytewright

open Assemble List

/-! ### Several expressions -/

/-- The stream of the expression is a piece that leaves one value. -/
def Expr.Emits (e : Expr) : Prop :=
  ∀ ls, size (e.emit ls).1 < 4294967296 →
    Piece false ls.allocated (e.emit ls).2.allocated [] [.any] (e.emit ls).1

theorem emitAll_cons (e : Expr) (es : List Expr) (ls : Labels) :
    emitAll (e :: es) ls = ((e.emit ls).1 ++ (emitAll es (e.emit ls).2).1,
      (emitAll es (e.emit ls).2).2) := by
  rw [emitAll]

theorem emitKeywords_cons (x : String) (e : Expr) (es : List (String × Expr)) (ls : Labels) :
    emitKeywords ((x, e) :: es) ls =
      ([.const (.str x)] ++ ((e.emit ls).1 ++ (emitKeywords es (e.emit ls).2).1),
        (emitKeywords es (e.emit ls).2).2) := by
  rw [emitKeywords]
  rfl

theorem emitPairs_cons (key value : Expr) (es : List (Expr × Expr)) (ls : Labels) :
    emitPairs ((key, value) :: es) ls =
      ((value.emit ls).1 ++ ((key.emit (value.emit ls).2).1 ++ ([.bare .storeMap] ++
        (emitPairs es (key.emit (value.emit ls).2).2).1)),
        (emitPairs es (key.emit (value.emit ls).2).2).2) := by
  rw [emitPairs]
  simp only [append_assoc, singleton_append]

theorem piece_emitAll {es : List Expr} (hes : ∀ e ∈ es, e.Emits) (ls : Labels)
    (hsize : size (emitAll es ls).1 < 4294967296) :
    Piece false ls.allocated (emitAll es ls).2.allocated [] (List.replicate es.length .any)
      (emitAll es ls).1 := by
  induction es generalizing ls with
  | nil =>
    rw [emitAll]
    exact .nil _ _ _
  | cons e es ih =>
    rw [emitAll_cons] at hsize ⊢
    rw [size_append] at hsize
    have hfirst := hes e mem_cons_self ls (by omega)
    have hrest := ih (fun e he => hes e (mem_cons_of_mem _ he)) (e.emit ls).2 (by omega)
    rw [length_cons, replicate_succ']
    exact hfirst.append (hrest.frame [.any])

theorem Piece.leaf (first : Nat) {o : Op} {opcode : Opcode} {ins outs : List Kind}
    (hop : o.opcode = some opcode) (hins : ins.length = (opcode.effect o.countArg).1 := by rfl)
    (hleaves : opcode.leaves o.countArg = outs := by rfl)
    (hgrowth : outs.length ≤ ins.length + 1 := by simp) (hjump : ∀ j l, o ≠ .jump j l := by simp)
    (hflow : opcode.endsFlow = false := by rfl) (hblock : opcode.movesBlock = false := by rfl)
    (hfinds : opcode.Finds o.countArg ins := by trivial) :
    Piece false first first ins outs [o] :=
  .op false first hop hjump hflow hblock hgrowth hins hfinds
    (by rw [hleaves]; exact forall₂_below_self _)

theorem piece_emitKeywords {es : List (String × Expr)} (hes : ∀ p ∈ es, p.2.Emits) (ls : Labels)
    (hsize : size (emitKeywords es ls).1 < 4294967296) :
    Piece false ls.allocated (emitKeywords es ls).2.allocated []
      (List.replicate (2 * es.length) .any) (emitKeywords es ls).1 := by
  induction es generalizing ls with
  | nil =>
    rw [emitKeywords]
    exact .nil _ _ _
  | cons p es ih =>
    obtain ⟨x, e⟩ := p
    rw [emitKeywords_cons] at hsize ⊢
    rw [size_append, size_append] at hsize
    have hname : Piece false ls.allocated ls.allocated [] [.any] [.const (.str x)] :=
      .leaf _ rfl
    have hvalue : e.Emits := hes (x, e) mem_cons_self
    have hrest := ih (fun p hp => hes p (mem_cons_of_mem _ hp)) (e.emit ls).2 (by omega)
    rw [length_cons, Nat.mul_succ, replicate_add]
    exact hname.append (((hvalue ls (by omega)).frame [.any]).append (hrest.frame [.any, .any]))

theorem piece_emitPairs {es : List (Expr × Expr)} (hes : es ≠ []) (hkeys : ∀ p ∈ es, p.1.Emits)
    (hvalues : ∀ p ∈ es, p.2.Emits) (ls : Labels)
    (hsize : size (emitPairs es ls).1 < 4294967296) :
    Piece false ls.allocated (emitPairs es ls).2.allocated [.dict] [.any] (emitPairs es ls).1 := by
  induction es generalizing ls with
  | nil => exact absurd rfl hes
  | cons p es ih =>
    obtain ⟨key, value⟩ := p
    rw [emitPairs_cons] at hsize ⊢
    rw [size_append, size_append, size_append] at hsize
    have hvalue : value.Emits := hvalues (key, value) mem_cons_self
    have hkey : key.Emits := hkeys (key, value) mem_cons_self
    have hstore (k : Kind) (hk : Kind.Below .dict k) (first : Nat) :
        Piece false first first [.any, .any, .dict] [k] [.bare .storeMap] :=
      .op false first rfl (by simp) rfl rfl (by simp) rfl rfl (.cons hk .nil)
    refine ((hvalue ls (by omega)).frame [.dict]).append
      (((hkey _ (by omega)).frame [.any, .dict]).append ?_)
    cases es with
    | nil =>
      rw [emitPairs]
      exact (hstore .any (.inr rfl) _).append (.nil _ _ _)
    | cons q es =>
      exact (hstore .dict (.inl rfl) _).append
        (ih (by simp) (fun p hp => hkeys p (mem_cons_of_mem _ hp))
          (fun p hp => hvalues p (mem_cons_of_mem _ hp)) _ (by omega))

/-! ### Expressions -/

theorem toNat_ofNat_length {es : List Expr} {first next : Nat} {ops : Stream}
    (h : Piece false first next [] (List.replicate es.length .any) ops)
    (hsize : size ops < 4294967296) : (UInt32.ofNat es.length).toNat = es.length := by
  have hgrowth := h.growth
  rw [length_replicate, length_nil] at hgrowth
  exact UInt32.toNat_ofNat_of_lt' (show es.length < 4294967296 by omega)

theorem piece_build {es : List Expr} (hes : ∀ e ∈ es, e.Emits) (ls : Labels) {op : CountOp}
    (hop : op = .buildTuple ∨ op = .buildList)
    (hsize : size (emitAll es ls).1 < 4294967296) :
    Piece false ls.allocated (emitAll es ls).2.allocated [] [.any]
      ((emitAll es ls).1 ++ [.count op (UInt32.ofNat es.length)]) := by
  have hitems := piece_emitAll hes ls hsize
  have hlength := toNat_ofNat_length hitems hsize
  refine hitems.append ?_
  rcases hop with rfl | rfl <;> exact .leaf _ rfl (by simp [Opcode.effect, Op.countArg, hlength])

theorem Expr.Callable.emits {e : Expr} (he : e.Callable) : e.Emits := by
  induction he with (intro ls hsize; rw [Expr.emit] at hsize ⊢)
  | literal c | name x =>
    exact .leaf _ rfl
  | member hobj attr ih | negate h ih | not h ih =>
    rw [size_append] at hsize
    exact (ih ls (by omega)).append (.leaf _ rfl)
  | @call func args kwargs hargsLength hkwargsLength hfunc hargs hkwargs ihfunc ihargs ihkwargs =>
    rw [size_append, size_append, size_append] at hsize
    have hf := ihfunc ls (by omega)
    have ha := piece_emitAll ihargs (func.emit ls).2 (by omega)
    have hk := piece_emitKeywords ihkwargs (emitAll args (func.emit ls).2).2 (by omega)
    refine ((hf.append (ha.frame [.any])).append
      (hk.frame (List.replicate args.length .any ++ [.any]))).append ?_
    refine .leaf _ rfl ?_
    have hpositional : (UInt8.ofNat args.length).toNat = args.length :=
      UInt8.toNat_ofNat_of_lt' (show args.length < 256 by omega)
    have hnamed : (UInt8.ofNat kwargs.length).toNat = kwargs.length :=
      UInt8.toNat_ofNat_of_lt' (show kwargs.length < 256 by omega)
    simp only [Opcode.effect, Op.countArg, splitArgSpec_argSpec, hpositional, hnamed,
      length_append, length_replicate, length_singleton]
    omega
  | @tuple items hitems ih =>
    cases hconst : constants? items with
    | some cs => exact .leaf _ rfl
    | none =>
      simp only [hconst, size_append] at hsize
      exact piece_build ih ls (.inl rfl) (by omega)
  | list hitems ih =>
    rw [size_append] at hsize
    exact piece_build ih ls (.inr rfl) (by omega)
  | @dict pairs hkeys hvalues ihkeys ihvalues =>
    have hbuild (k : Kind) (hk : Kind.Below .dict k) : Piece false ls.allocated ls.allocated [] [k]
        [.count .buildMap (UInt32.ofNat pairs.length)] :=
      .op false _ rfl (by simp) rfl rfl (by simp) rfl trivial (.cons hk .nil)
    cases pairs with
    | nil =>
      rw [emitPairs]
      exact hbuild .any (.inr rfl)
    | cons p pairs =>
      rw [size_cons_of_isReal rfl] at hsize
      exact (hbuild .dict (.inl rfl)).append
        (piece_emitPairs (by simp) ihkeys ihvalues ls (by omega))
  | subscript _ _ ihleft ihright | binary _ _ _ ihleft ihright | compare _ _ _ ihleft ihright =>
    rw [size_append, size_append] at hsize
    exact ((ihleft ls (by omega)).append ((ihright _ (by omega)).frame [.any])).append
      (.leaf _ rfl)
  | @ifElse cond then_ else_ hcond hthen helse ihcond ihthen ihelse =>
    simp only [Labels.fresh, append_assoc, cons_append, nil_append] at hsize ⊢
    rw [← Piece.choice, Piece.size_choice] at hsize
    have hc := ihcond ⟨ls.allocated + 1 + 1⟩ (by omega)
    have ht := ihthen (cond.emit ⟨ls.allocated + 1 + 1⟩).2 (by omega)
    exact .conditional hc ht (ihelse _ (by omega))

/-! ### Statements -/

theorem piece_emit_target {t : Target} (ht : t.Callable) (ls : Labels)
    (hsize : size (t.emit ls).1 < 4294967296) :
    Piece false ls.allocated (t.emit ls).2.allocated [.any] [] (t.emit ls).1 := by
  rcases t with x | ⟨obj, attr⟩ | ⟨obj, key⟩
  · exact .leaf _ rfl
  · rw [Target.emit] at hsize ⊢
    rw [size_append] at hsize
    have hobj := ht.emits ls (by omega)
    exact (hobj.frame [.any]).append (.leaf _ rfl)
  · rw [Target.emit] at hsize ⊢
    rw [size_append, size_append] at hsize
    have hobj := ht.1.emits ls (by omega)
    have hkey := ht.2.emits (obj.emit ls).2 (by omega)
    exact ((hobj.frame [.any]).append (hkey.frame [.any, .any])).append
      (.leaf _ rfl)

theorem piece_emit_action {a : Action} (ha : a.Callable) (ls : Labels)
    (hsize : size (a.emit ls).1 < 4294967296) :
    Piece false ls.allocated (a.emit ls).2.allocated [] [] (a.emit ls).1 := by
  cases a with
  | expr e =>
    rw [Action.emit] at hsize ⊢
    rw [size_append] at hsize
    have he := Expr.Callable.emits ha ls (by omega)
    exact he.append (.leaf _ rfl)
  | assign target value =>
    rw [Action.emit] at hsize ⊢
    rw [size_append] at hsize
    have hvalue := ha.2.emits ls (by omega)
    exact hvalue.append (piece_emit_target ha.1 _ (by omega))
  | delete x => exact .leaf _ rfl
  | raise e =>
    rw [Action.emit] at hsize ⊢
    rw [size_append] at hsize
    have he := Expr.Callable.emits ha ls (by omega)
    have hcount : (Opcode.count .raiseVarargs).Finds 1 [.any] := show 1 ≤ 3 by omega
    refine he.append (.real false _ rfl (by simp) (by simp) fun top under => ⟨⟨top, under⟩, ?_⟩)
    exact .stop [.any] top rfl (by simp) rfl hcount
  | pass => exact .nil _ _ _

theorem piece_emitSuite {body : List Stmt} (hbody : ∀ s ∈ body, s.Callable) (ls : Labels)
    (hsize : size (emitSuite body ls).1 < 4294967296) :
    Piece false ls.allocated (emitSuite body ls).2.allocated [] [] (emitSuite body ls).1 := by
  induction body generalizing ls with
  | nil =>
    rw [emitSuite]
    exact .nil _ _ _
  | cons s body ih =>
    have hemit : emitSuite (s :: body) ls =
        ([.line s.line] ++ ((s.action.emit ls).1 ++ (emitSuite body (s.action.emit ls).2).1),
          (emitSuite body (s.action.emit ls).2).2) := by
      rw [emitSuite, Stmt.emit]
      rfl
    rw [hemit] at hsize ⊢
    rw [size_append, size_append] at hsize
    have hs := piece_emit_action (hbody s mem_cons_self) ls (by omega)
    have hrest := ih (fun s hs => hbody s (mem_cons_of_mem _ hs)) (s.action.emit ls).2
      (by omega)
    exact (Piece.line false _ [] s.line).append (hs.append hrest)

end Bytewright
