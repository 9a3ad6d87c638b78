import Bytewright.Proofs.Machine.Execute

/-!
# How instructions are built

Where an instruction moves on to another place or edits a map, this comes last.  So what is known
about the elementary operations, and kept when they follow each other, is known about instructions.
-/

namespace Bytewright

/-! ### Maps of the store -/

/-- The maps are left alone, one is added, or a key of one is set. -/
inductive MapEdit (maps : Array (List (Value × Value))) :
    Array (List (Value × Value)) → Prop where
  | leave : MapEdit maps maps
  | build : MapEdit maps (maps.push [])
  | insert (s : Store) (i : Nat) (key v : Value) :
      MapEdit maps (maps.setIfInBounds i (insertPair s.equals key v (maps.getD i [])))

theorem MapEdit.of_eq {maps maps' : Array (List (Value × Value))} (h : maps' = maps) :
    MapEdit maps maps' :=
  h ▸ .leave

variable {s' : Store}

namespace Exec

variable {s : Store} {v obj : Value} {name : String}

theorem dicts_of_attr (h : s.attr obj name = .ok (v, s')) : s'.dicts = s.dicts := by
  unfold Store.attr at h
  dsimp only at h
  split at h
  · next result hfound =>
    cases h
    split at hfound
    · obtain ⟨w, -, hw⟩ := Option.map_eq_some_iff.1 hfound
      cases hw
      rfl
    · split_ifs at hfound
      cases hfound
      rfl
    · split_ifs at hfound
      cases hfound
      rfl
    · split_ifs at hfound
      cases hfound
      rfl
    · obtain ⟨call, -, hw⟩ := Option.map_eq_some_iff.1 hfound
      cases hw
      rfl
    · cases hfound
  · cases h

theorem dicts_of_setAttr (h : s.setAttr obj name v = .ok s') : s'.dicts = s.dicts := by
  unfold Store.setAttr at h
  split at h <;> cases h
  rfl

theorem dicts_of_arith {op : ArithOp} {a b : Value} (h : s.arith op a b = .ok (v, s')) :
    s'.dicts = s.dicts := by
  unfold Store.arith at h
  split at h
  · next x y _ _ =>
    cases hn : op.onInts x y <;> rw [hn] at h <;> cases h
    rfl
  · split at h
    · next x y _ _ =>
      cases hr : op.onFloats x y <;> rw [hr] at h <;> cases h
      rfl
    · split at h <;> cases h <;> rfl

theorem dicts_of_normalize {type : Value} {e : Exception} (h : s.normalize type v = .ok (e, s')) :
    s'.dicts = s.dicts := by
  unfold Store.normalize at h
  have hsame : ∀ {p : Exception × Store}, p.2.dicts = s.dicts → Except.ok (ε := Failure) p =
      .ok (e, s') → s'.dicts = s.dicts := by
    rintro _ hp ⟨⟩
    exact hp
  split at h
  · exact hsame (p := (_, s)) rfl h
  · cases h
  · exact hsame (by split_ifs <;> rfl) h
  · exact hsame rfl h
  · exact hsame rfl h
  · exact hsame rfl h
  · cases h

mutual

theorem dicts_ofConst (s : Store) : (c : Const) → (s.ofConst c).2.dicts = s.dicts
  | .none | .bool _ | .int _ | .float _ | .str _ | .code _ => rfl
  | .tuple items => dicts_ofConsts s items

theorem dicts_ofConsts (s : Store) : (cs : List Const) → (s.ofConsts cs).2.dicts = s.dicts
  | [] => rfl
  | c :: cs => (dicts_ofConsts (s.ofConst c).2 cs).trans (dicts_ofConst s c)

end

theorem mapEdit_of_setItem {key : Value} (h : s.setItem obj key v = .ok s') :
    MapEdit s.dicts s'.dicts := by
  unfold Store.setItem at h
  split at h
  · next r =>
    cases hi : position .list (s.list r).length key <;> rw [hi] at h <;> cases h
    exact .leave
  · next r =>
    cases h
    exact .insert s r.index _ _
  · split at h <;> cases h
    exact .leave
  · cases h

end Exec

/-! ### Operations -/

def Signal.Stays : Signal → Prop
  | .call _ => False
  | _ => True

namespace Exec

/-- The operation is built from elementary ones that neither move on nor edit maps, and `q` holds of
its answer. -/
inductive Built : ∀ {α : Type}, (α → Prop) → Exec α → Prop
  | pure {α : Type} {q : α → Prop} {a : α} (ha : q a) : Built q (pure a)
  | bind {α β : Type} {q : α → Prop} {x : Exec β} {g : β → Exec α} (hx : Built (fun _ => True) x)
      (hg : ∀ b, Built q (g b)) : Built q (x >>= g)
  | pop : Built (fun _ => True) pop
  | popMany (n : Nat) : Built (fun _ => True) (popMany n)
  | push (v : Value) : Built (fun _ => True) (push v)
  | pushAll (vs : List Value) :
      Built (fun _ => True) (frame >>= fun f => setFrame { f with stack := vs ++ f.stack })
  | setFast (i : Nat) (v : Option Value) :
      Built (fun _ => True) (frame >>= fun f => setFrame { f with fast := f.fast.set i v })
  | read {α : Type} {q : α → Prop} {g : Frame → Exec α}
      (hread : ∀ f stack blocks, g { f with stack, blocks } = g f) (hg : ∀ f, Built q (g f)) :
      Built q (frame >>= g)
  | store : Built (fun _ => True) store
  | update {α : Type} {g : Store → Except Failure (α × Store)}
      (hg : ∀ s a s', g s = .ok (a, s') → s'.dicts = s.dicts) :
      Built (fun _ => True) (Exec.store >>= fun s => orFailWith (g s))
  | fail {α : Type} {q : α → Prop} (e : Failure) : Built q (fail e)
  | raise {α : Type} {q : α → Prop} (e : Exception) : Built q (raise e)
  | raiseAgain {α : Type} {q : α → Prop} (e : Exception) (entries : List TraceEntry) :
      Built q (raiseAgain e entries)
  | fatal {α : Type} {q : α → Prop} {cause : Fatal} (hcause : ∀ k, cause ≠ .underflow k) :
      Built q (fatal cause)

/-- The operation is built in this way, up to where it settles a comparison, moves on or edits a
map. -/
inductive Moving : ∀ {α : Type}, (α → Prop) → Exec α → Prop
  | built {α : Type} {q : α → Prop} {x : Exec α} (hx : Built q x) : Moving q x
  | bind {α β : Type} {q : α → Prop} {x : Exec β} {g : β → Exec α} (hx : Built (fun _ => True) x)
      (hg : ∀ b, Moving q (g b)) : Moving q (x >>= g)
  | answer {α β : Type} {q : α → Prop} {x : Exec β} {a : α} (hx : Moving (fun _ => True) x)
      (ha : q a) : Moving q (x >>= fun _ => pure a)
  | settle {α : Type} {q : α → Prop} {x : Exec α} (b : Store → Bool) (hx : Moving q x) :
      Moving q ((store >>= fun s => settle (b s)) >>= fun _ => x)
  | jumpTo (index : Nat) (target : Option Nat) : Moving (fun _ => True) (jumpTo index target)
  | forIter (index : Nat) (target : Option Nat) :
      Moving (fun _ => True) (onJump .forIter index target)
  | storeMap (index : Nat) : Moving Signal.Stays (onBare .storeMap index)
  | edit {α β : Type} {q : α → Prop} {g : Store → Except Failure (β × Store)} {k : β → Exec α}
      (hg : ∀ s b s', g s = .ok (b, s') → MapEdit s.dicts s'.dicts) (hk : ∀ b, Built q (k b)) :
      Moving q ((Exec.store >>= fun s => orFailWith (g s)) >>= k)

variable {α β : Type} {q : α → Prop} {ins : Instruction}

theorem store_orFail (g : Store → Except Failure Store) (k : Exec α) :
    (store >>= fun s => orFail (g s) >>= fun s' => setStore s' >>= fun _ => k) =
      (store >>= fun s => orFailWith ((g s).map fun s' => ((), s'))) >>= fun _ => k := by
  funext m
  simp only [Bind.bind, EStateM.bind, store]
  cases g m.memory.store <;> rfl

theorem store_settle (b : Store → Bool) (g : Store → Exec α) :
    (store >>= fun s => settle (b s) >>= fun _ => g s) =
      (store >>= fun s => settle (b s)) >>= fun _ => store >>= g := by
  funext m
  simp only [Bind.bind, EStateM.bind, store]
  cases b m.memory.store <;> rfl

theorem ok_of_map {r : Except Failure Store} {a : Unit} (h : (r.map fun s => (a, s)) = .ok
    (a, s')) : r = .ok s' := by
  cases r <;> cases h
  rfl

namespace Built

theorem popCondition : Built (fun _ => True) popCondition :=
  pop.bind fun _ => store.bind fun _ => .pure trivial

theorem orFail (r : Except Failure α) : Built (fun _ => True) (orFail r) := by
  cases r with
  | ok a => exact .pure trivial
  | error e => exact .fail e

theorem set {g : Store → β × Store} (hg : ∀ s, (g s).2.dicts = s.dicts) {k : β → Exec α}
    (hk : ∀ b, Built q (k b)) :
    Built q (Exec.store >>= fun s => setStore (g s).2 >>= fun _ => k (g s).1) := by
  refine (update (g := fun s => .ok (g s)) fun s a s' h => ?_).bind hk
  rw [← hg s, Except.ok.inj h]

theorem answer (v : Value) : Built Signal.Stays (Exec.push v >>= fun _ => Pure.pure .next) :=
  (push v).bind fun _ => .pure trivial

/-! ### Parts of instructions -/

theorem iterateItems (v : Value) : Built (fun _ => True) (Exec.store >>= fun s =>
    match s.items? v with
    | some items => setStore (s.newIter items).2 >>= fun _ => Pure.pure (s.newIter items).1
    | none => Exec.fail (.notIterable v.typeName)) := by
  have hupdate : Built (fun _ => True) (Exec.store >>= fun s => orFailWith
      ((s.items? v).elim (.error (.notIterable v.typeName)) (.ok <| s.newIter ·))) := by
    refine update fun s i s' h => ?_
    cases hitems : s.items? v <;> rw [hitems] at h <;> cases h
    rfl
  convert hupdate using 3 with s
  cases s.items? v <;> rfl

theorem iterate (v : Value) : Built (fun _ => True) (iterate v) := by
  have hother := iterateItems v
  cases v with
  | iterator r => exact .pure trivial
  | _ => exact hother

theorem deleteFrom (r : ScopeRef) (x : String) : Built (fun _ => True) (deleteFrom r x) := by
  have hupdate : Built (fun _ => True) (Exec.store >>= fun s => orFailWith
      (((s.scope r).get? x).elim (.error (.unbound x))
        fun _ => .ok ((), s.setScope r ((s.scope r).erase x)))) := by
    refine update fun s a s' h => ?_
    cases hx : (s.scope r).get? x <;> rw [hx] at h <;> cases h
    rfl
  unfold Exec.deleteFrom
  convert hupdate using 3 with s
  cases (s.scope r).get? x <;> rfl

theorem deleteFast (i : Nat) (x : String) : Built (fun _ => True) (onName .deleteFast i x) := by
  have hslot : Built (fun _ => True) ((frame >>= fun f =>
      f.fast[i]?.join.elim (Exec.fail (.unboundLocal x)) fun _ => Pure.pure ()) >>= fun _ =>
        frame >>= fun f => setFrame { f with fast := f.fast.set i none }) := by
    refine (read (fun _ _ _ => rfl) fun f => ?_).bind fun _ => setFast i none
    cases f.fast[i]?.join with
    | none => exact .fail _
    | some v => exact .pure trivial
  convert hslot using 1
  funext m
  simp only [onName, Bind.bind, EStateM.bind, frame]
  rcases m.frame.fast[i]? with _ | _ | v <;> rfl

theorem onName (op : NameOp) (i : Nat) (x : String) : Built (fun _ => True) (onName op i x) := by
  have hbind (v : Value) (r : ScopeRef) :
      Built (fun _ => True) (Exec.store >>= fun s => setStore (s.bindName r x v)) :=
    set (g := fun s => ((), s.bindName r x v)) (fun s => rfl) fun _ => .pure trivial
  cases op with
  | loadFast | loadDeref =>
    refine read (fun _ _ _ => rfl) fun f => ?_
    dsimp only
    split
    · exact push _
    · exact .fail _
  | storeFast => exact read (fun _ _ _ => rfl) fun f => pop.bind fun v => setFast i (some v)
  | deleteFast => exact deleteFast i x
  | loadName =>
    refine read (fun _ _ _ => rfl) fun f => store.bind fun s => ?_
    split
    · exact push _
    · exact (orFail _).bind push
  | storeName | storeGlobal => exact read (fun _ _ _ => rfl) fun f => pop.bind fun v => hbind v _
  | deleteName | deleteGlobal => exact read (fun _ _ _ => rfl) fun f => deleteFrom _ x
  | loadGlobal =>
    exact read (fun _ _ _ => rfl) fun f => store.bind fun s => (orFail _).bind push
  | loadAttr =>
    exact read (fun _ _ _ => rfl) fun f => pop.bind fun obj =>
      (update fun s v s' => dicts_of_attr).bind push
  | storeAttr =>
    refine read (fun _ _ _ => rfl) fun f => pop.bind fun obj => pop.bind fun v => ?_
    have hset : Built (fun _ => True) ((Exec.store >>= fun s => orFailWith
        ((s.setAttr obj x v).map fun s' => ((), s'))) >>= fun _ => Pure.pure ()) :=
      (update fun s _ s' h => dicts_of_setAttr (ok_of_map h)).bind fun _ => .pure trivial
    rw [← store_orFail] at hset
    exact hset

theorem raiseOperands (n : Nat) : Built Signal.Stays (raiseOperands n) := by
  have hnormalize (type v : Value) {k : Exception → Exec Signal}
      (hk : ∀ e, Built Signal.Stays (k e)) :
      Built Signal.Stays (Exec.store >>= fun s => orFailWith (s.normalize type v) >>= k) :=
    (update fun s e s' => dicts_of_normalize).bind hk
  unfold Exec.raiseOperands
  split
  · refine read (fun _ _ _ => rfl) fun f => ?_
    split
    · exact .raiseAgain _ _
    · exact .fail _
  · exact pop.bind fun type => hnormalize _ _ .raise
  · exact pop.bind fun v => pop.bind fun type => hnormalize _ _ .raise
  · refine pop.bind fun tb => pop.bind fun v => pop.bind fun type => hnormalize _ _ fun e => ?_
    split
    · exact .raiseAgain _ _
    · exact .raise e
    · exact .fail _
  · exact .fatal (by simp)

theorem popSpread (op : CallOp) : Built (fun _ => True) (popSpread op) := by
  cases op with
  | callFunction => exact .pure trivial
  | callFunctionVar =>
    refine pop.bind fun v => store.bind fun s => ?_
    split
    · exact .pure trivial
    · exact .fail _

/-! ### Instructions -/

theorem moving_onBare (op : BareOp) (index : Nat) (hop : op ≠ .popBlock) :
    Moving Signal.Stays (Exec.onBare op index) := by
  cases op with
  | popTop => exact .built (pop.bind fun _ => .pure trivial)
  | rotTwo =>
    exact .built (pop.bind fun b => pop.bind fun a => (push b).bind fun _ => answer a)
  | rotThree =>
    exact .built (pop.bind fun c => pop.bind fun b => pop.bind fun a =>
      (push c).bind fun _ => (push a).bind fun _ => answer b)
  | dupTop => exact .built (pop.bind fun a => (push a).bind fun _ => answer a)
  | dupTopTwo =>
    refine .built ((popMany 2).bind fun vs => ?_)
    split
    · exact (push _).bind fun _ => (push _).bind fun _ =>
        (push _).bind fun _ => answer _
    · exact .pure trivial
  | storeMap => exact .storeMap index
  | binarySubscr =>
    refine .bind pop fun key => .bind pop fun obj => ?_
    rw [Exec.store_settle]
    exact .settle _ (.built (store.bind fun s => (orFail _).bind answer))
  | storeSubscr =>
    refine .bind pop fun key => .bind pop fun obj => .bind pop fun v => ?_
    rw [Exec.store_settle, Exec.store_orFail]
    exact .settle _
      (.edit (fun s _ s' h => mapEdit_of_setItem (ok_of_map h)) fun _ => .pure trivial)
  | unaryNot => exact .built (popCondition.bind fun b => answer _)
  | unaryNegative => exact .built (pop.bind fun v => (orFail _).bind answer)
  | popBlock => exact absurd rfl hop
  | getIter => exact .built (pop.bind fun v => (iterate v).bind answer)
  | endFinally =>
    refine .built (pop.bind fun type => pop.bind fun v => pop.bind fun tb => ?_)
    cases type with
    | exceptionType kind =>
      refine (update fun s e s' => dicts_of_normalize).bind fun e => ?_
      split
      · exact .raiseAgain _ _
      · exact .raiseAgain _ _
    | _ => exact .pure trivial
  | returnValue => exact .built (pop.bind fun v => .pure trivial)

theorem moving_onCount (op : CountOp) (n : Nat) : Moving Signal.Stays (Exec.onCount op n) := by
  cases op with
  | buildTuple => exact .built ((popMany n).bind fun items => answer _)
  | buildList =>
    exact .built ((popMany n).bind fun items =>
      set (g := fun s => s.newList items) (fun s => rfl) answer)
  | buildMap =>
    refine .edit (g := fun s => .ok (s.newDict [])) (fun s v s' h => ?_) answer
    cases h
    exact .build
  | unpackSequence =>
    refine .built (pop.bind fun v => store.bind fun s => ?_)
    split
    · exact .fail _
    · split
      · exact (pushAll _).bind fun _ => .pure trivial
      · exact .fail _
  | makeFunction =>
    refine .built (pop.bind fun v => (popMany n).bind fun defaults => ?_)
    split
    · next _ unit =>
      exact read (fun _ _ _ => rfl) fun f => set
        (g := fun s => s.newFunction unit defaults f.globals []) (fun s => rfl)
        fun g => answer (.function g)
    · exact .fatal (by simp)
  | raiseVarargs => exact .built (raiseOperands n)

theorem moving_onJump (op : JumpOp) (index : Nat) (target : Option Nat)
    (hop : (Opcode.jump op).movesBlock = false) :
    Moving (fun _ => True) (Exec.onJump op index target) := by
  cases op with
  | jumpForward | jumpAbsolute => exact .jumpTo index target
  | popJumpIfFalse =>
    refine .bind popCondition fun b => ?_
    split_ifs
    · exact .built (.pure trivial)
    · exact .jumpTo index target
  | popJumpIfTrue =>
    refine .bind popCondition fun b => ?_
    split_ifs
    · exact .jumpTo index target
    · exact .built (.pure trivial)
  | setupExcept | setupLoop => cases hop
  | forIter => exact .forIter index target

end Built

theorem eq_of_movesBlock {op : Opcode} (h : op.movesBlock = true) :
    op = .bare .popBlock ∨ op = .jump .setupExcept ∨ op = .jump .setupLoop := by
  unfold Opcode.movesBlock at h
  split at h <;> simp_all

theorem execute_of_movesBlock (h : ins.opcode.movesBlock = true) (index : Nat) :
    execute ins index = onBare .popBlock index ∨
      ∃ kind target, execute ins index = enterBlock kind index target >>= fun _ => pure .next := by
  obtain ⟨op, arg⟩ := ins
  obtain rfl | rfl | rfl := eq_of_movesBlock h
  · exact .inl rfl
  · exact .inr ⟨.except, Instruction.target ⟨.jump .setupExcept, arg⟩ index, rfl⟩
  · exact .inr ⟨.loop, Instruction.target ⟨.jump .setupLoop, arg⟩ index, rfl⟩

theorem moving_execute (index : Nat) (hblock : ins.opcode.movesBlock = false)
    (hcall : ∀ op, ins.opcode ≠ .call op) : Moving Signal.Stays (execute ins index) := by
  obtain ⟨op, arg⟩ := ins
  cases op with
  | bare op =>
    refine Built.moving_onBare op index ?_
    rintro rfl
    cases hblock
  | loadConst =>
    refine .built (.read (fun _ _ _ => rfl) fun f => ?_)
    dsimp only
    split
    · next c _ => exact .set (g := fun s => s.ofConst c) (fun s => dicts_ofConst s c) .answer
    · exact .fatal (by simp)
  | name op =>
    refine .built (.read (fun _ _ _ => rfl) fun f => ?_)
    dsimp only
    split
    · exact (Built.onName op _ _).bind fun _ => .pure trivial
    · exact .fatal (by simp)
  | count op => exact Built.moving_onCount op _
  | binaryOp =>
    unfold execute
    dsimp only
    split
    · exact .built (Built.pop.bind fun b => Built.pop.bind fun a =>
        (Built.update fun s v s' => dicts_of_arith).bind .answer)
    · exact .built (.fatal (by simp))
  | compareOp =>
    unfold execute
    dsimp only
    split
    · refine .bind Built.pop fun b => .bind Built.pop fun a => ?_
      rw [store_settle]
      exact .settle _
        (.built (Built.store.bind fun s => (Built.orFail _).bind fun v => .answer _))
    · exact .built (.fatal (by simp))
  | call op => exact absurd rfl (hcall op)
  | jump op => exact .answer (Built.moving_onJump op index _ hblock) trivial

/-! ### Calls -/

def operands (op : CallOp) (arg : UInt32) :
    Exec (Value × List Value × Keywords) := do
  let spread ← popSpread op
  let kwargs ← orFail (keywords (← popMany (2 * (splitArgSpec arg).2.toNat)))
  let args ← popMany (splitArgSpec arg).1.toNat
  let f ← pop
  return (f, args ++ spread, kwargs)

theorem onCall_eq (op : CallOp) (arg : UInt32) :
    onCall op arg = operands op arg >>= fun p => callWith p.1 p.2.1 p.2.2 := by
  simp only [onCall, operands, bind_assoc, pure_bind]

theorem built_operands (op : CallOp) (arg : UInt32) : Built (fun _ => True) (operands op arg) :=
  (Built.popSpread op).bind fun _ => (Built.popMany _).bind fun _ =>
    (Built.orFail _).bind fun _ => (Built.popMany _).bind fun _ =>
      Built.pop.bind fun _ => .pure trivial

end Exec

end Bytewright
