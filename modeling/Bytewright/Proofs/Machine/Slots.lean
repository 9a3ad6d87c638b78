import Bytewright.Proofs.Machine.Crash
import Bytewright.Proofs.Machine.InRange

/-!
# Runs whose direct accesses stay in range

In every frame that a run reaches there is a slot for the name of each fast local, whatever code the
frame has.  So no instruction makes a direct access that goes wrong.  Only the number of items of a
sequence must be a word, as it is for every sequence that a memory holds.
-/

namespace Bytewright

open Exec List

/-- The lengths of the values on the stack are signed words. -/
def Moment.Countable (m : Moment) : Prop :=
  ∀ v ∈ m.frame.stack, ∀ n, m.memory.store.length? v = some n → n < 9223372036854775808

variable {m : Moment}

namespace Exec

theorem frame_bind {α : Type} (g : Frame → Exec α) : (frame >>= g) m = g m.frame m := rfl

theorem execute_name (op : NameOp) (arg : UInt32) (index : Nat) :
    execute ⟨.name op, arg⟩ index m = (match (m.frame.code.pool op.pool)[arg.toNat]? with
      | some x => onName op arg.toNat x >>= fun _ => pure .next
      | none => fatal (.nameRange arg.toNat) : Exec Signal) m := rfl

end Exec

namespace Guarded

variable {α β : Type} {x : Exec α}

/-- Once an instruction is fetched, no access of `g` goes wrong, and it does what `x` does. -/
def Follows (g : Guarded α) (x : Exec α) : Prop := ∀ m : Moment, 0 < m.frame.ip → g m = .ok (x m)

variable {q : α → Prop} {g : α → Guarded β}

theorem follows_pure (a : α) : Follows (pure a) (pure a) := fun _ _ => rfl

theorem follows_ofExec (h : x.Moves q) : Follows (ofExec x) x := by
  intro m hip
  have hends := h m
  unfold ofExec
  unfold Ends at hends
  cases hx : x m with
  | ok a m' => rfl
  | error stop m' =>
    rw [hx] at hends
    rcases stop with ⟨e, entries, again⟩ | cause | _
    · rfl
    swap
    · rfl
    cases cause with
    | underflow k =>
      obtain ⟨hat, hk⟩ := hends.underflow k rfl
      have hminus : Direct.minus m'.frame.ip 1 = .ok k := by
        rw [hat, hk]
        exact if_pos hip
      simp only [hminus, Direct.ok_bind, Direct.pure_eq_ok]
    | _ => rfl

theorem bind_apply (z : Guarded α) : (z >>= g) m = match z m with
    | .ok (.ok a m) => g a m
    | .ok (.error stop m) => .ok (.error stop m)
    | .error slip => .error slip := rfl

theorem bind_eq_ok {y : α → Exec β} (hx : x.Keeps q) (hip : 0 < m.frame.ip)
    (h : ∀ a m', x m = .ok a m' → g a m' = .ok (y a m')) :
    (ofExec x >>= g) m = .ok ((x >>= y) m) := by
  rw [bind_apply, follows_ofExec hx.moves m hip]
  change _ = Except.ok (EStateM.bind x y m)
  unfold EStateM.bind
  cases hm : x m with
  | ok a m' => exact h a m' hm
  | error stop m' => rfl

theorem follows_bind {y : α → Exec β} (hx : x.Keeps q)
    (h : ∀ a, q a → Follows (g a) (y a)) : Follows (ofExec x >>= g) (x >>= y) := by
  intro m hip
  refine bind_eq_ok hx hip fun a m' hm => ?_
  have hends := hx m
  unfold Ends at hends
  rw [hm] at hends
  exact h a hends.2.2 m' (by rw [hends.2.1]; exact hip)

theorem answer_eq_ok {g : Guarded α} (h : g m = .ok (x m)) (b : β) :
    (g >>= fun _ => pure b) m = .ok ((x >>= fun _ => pure b) m) := by
  rw [bind_apply, h]
  change _ = Except.ok (EStateM.bind x _ m)
  unfold EStateM.bind
  cases x m <;> rfl

theorem follows_ofDirect {d : Direct α} {a : α} {y : Exec β} (hd : d = .ok a)
    (h : Follows (g a) y) : Follows (ofDirect d >>= g) y := by
  subst hd
  exact h

end Guarded

namespace Direct

open Guarded

/-! ### Instructions -/

theorem callWith_follows (v : Value) (args : List Value) (kwargs : Keywords) :
    Follows (callWith v args kwargs) (Exec.callWith v args kwargs) := by
  have hmachine := follows_ofExec (keeps_callWith v args kwargs).moves
  cases v with
  | function f =>
    unfold callWith Exec.callWith
    refine follows_bind keeps_store fun s _ =>
      follows_ofDirect (bindFunction_eq_ok f args kwargs s) ?_
    cases hbind : f.bind args kwargs s with
    | ok bound => exact follows_bind (keeps_setStore _) fun _ _ => follows_pure _
    | error stop =>
      rcases stop with e | cause
      · exact follows_ofExec (keeps_fail e (q := fun _ => True)).moves
      · obtain rfl := FunctionOf.eq_tooFewLocals_of_bind hbind
        exact follows_ofExec (keeps_fatal (q := fun _ => True) (by simp)).moves
  | _ => exact hmachine

theorem keeps_popMany_even (n : Nat) : (popMany (2 * n)).Keeps fun vs => Even vs.length := by
  refine (keeps_popMany (2 * n)).answering fun m vs m' h => ?_
  unfold popMany at h
  split_ifs at h with hfew
  cases h
  rw [length_reverse, length_take_of_le (Nat.le_of_not_lt hfew)]
  exact even_two_mul n

theorem onCall_follows (op : CallOp) (arg : UInt32) :
    Follows (onCall op arg) (Exec.onCall op arg) := by
  unfold onCall Exec.onCall
  refine follows_bind (Built.popSpread op).keeps fun spread _ => ?_
  refine follows_bind (keeps_popMany_even _) fun named heven => ?_
  refine follows_ofDirect (pairs_eq_ok heven) ?_
  refine follows_bind (Built.orFail _).keeps fun kwargs _ => ?_
  refine follows_bind (keeps_popMany _) fun args _ => ?_
  exact follows_bind keeps_pop fun v _ => callWith_follows v (args ++ spread) kwargs

theorem binaryOp_follows (arg : UInt32) (index : Nat) :
    Follows (execute ⟨.binaryOp, arg⟩ index) (Bytewright.execute ⟨.binaryOp, arg⟩ index) := by
  unfold execute Bytewright.execute
  dsimp only
  cases ArithOp.ofIndex? arg.toNat with
  | none => exact follows_ofExec (keeps_fatal (q := fun _ => True) (by simp)).moves
  | some op =>
    refine follows_bind keeps_pop fun b _ => follows_bind keeps_pop fun a _ => ?_
    refine follows_bind keeps_store fun s _ => follows_ofDirect (arith_eq_ok s op a b) ?_
    refine follows_bind (keeps_orFailWith _) fun v _ => ?_
    exact follows_bind (keeps_push v) fun _ _ => follows_pure _

theorem eq_of_pop {v : Value} {m' : Moment} (h : pop m = .ok v m') :
    ∃ rest, m.frame.stack = v :: rest ∧
      m' = { m with frame := { m.frame with stack := rest } } := by
  unfold pop at h
  split at h
  · next w rest hstack =>
    cases h
    exact ⟨rest, hstack, rfl⟩
  · cases h

theorem onName_eq_ok (op : NameOp) {i : Nat} (x : String) (hip : 0 < m.frame.ip)
    (hi : op.pool = .locals → i < m.frame.fast.length) :
    onName op i x m = .ok (Exec.onName op i x m) := by
  have hmachine := follows_ofExec (Built.onName op i x).keeps.moves m hip
  cases op with
  | loadFast | deleteFast =>
    have hlt := hi rfl
    have hslot : m.frame.fast[i]? = some m.frame.fast[i] := getElem?_eq_getElem hlt
    simp only [Exec.onName]
    rw [frame_bind, hslot]
    change (ofDirect (read m.frame.fast i) >>= fun slot => _) m = _
    rw [read_of_lt hlt]
    cases m.frame.fast[i] with
    | some v =>
      first
      | exact follows_ofExec (keeps_push v).moves m hip
      | change (ofDirect (write m.frame.fast i none) >>= fun fast => _) m = _
        rw [write_of_lt hlt]
        rfl
    | none => exact follows_ofExec (keeps_fail _ (q := fun _ => True)).moves m hip
  | storeFast =>
    refine bind_eq_ok (m := m) keeps_pop hip fun v m' hpop => ?_
    obtain ⟨rest, -, rfl⟩ := eq_of_pop hpop
    change (ofDirect (write m.frame.fast i (some v)) >>= fun fast => _) _ = _
    rw [write_of_lt (hi rfl)]
    rfl
  | _ => exact hmachine

theorem binarySubscr_eq_ok (arg : UInt32) (index : Nat) (hip : 0 < m.frame.ip)
    (hcount : m.Countable) :
    execute ⟨.bare .binarySubscr, arg⟩ index m =
      .ok (Bytewright.execute ⟨.bare .binarySubscr, arg⟩ index m) := by
  refine bind_eq_ok keeps_pop hip fun key m' hkey => ?_
  obtain ⟨rest, hrest, rfl⟩ := eq_of_pop hkey
  refine bind_eq_ok keeps_pop hip fun obj m' hobj => ?_
  obtain ⟨left, hleft, rfl⟩ := eq_of_pop hobj
  have hlength := hcount obj (by rw [hrest, show rest = _ from hleft]; simp)
  refine bind_eq_ok keeps_store hip fun s m' hs => ?_
  cases hs
  refine follows_bind (keeps_settle _) (fun _ _ => ?_) _ hip
  refine follows_ofDirect (item_eq_ok hlength key) ?_
  refine follows_bind (Built.orFail _).keeps fun v _ => ?_
  exact follows_bind (keeps_push v) fun _ _ => follows_pure _

theorem storeSubscr_eq_ok (arg : UInt32) (index : Nat) (hip : 0 < m.frame.ip)
    (hcount : m.Countable) :
    execute ⟨.bare .storeSubscr, arg⟩ index m =
      .ok (Bytewright.execute ⟨.bare .storeSubscr, arg⟩ index m) := by
  refine bind_eq_ok keeps_pop hip fun key m' hkey => ?_
  obtain ⟨rest, hrest, rfl⟩ := eq_of_pop hkey
  refine bind_eq_ok keeps_pop hip fun obj m' hobj => ?_
  obtain ⟨left, hleft, rfl⟩ := eq_of_pop hobj
  have hlength := hcount obj (by rw [hrest, show rest = _ from hleft]; simp)
  refine bind_eq_ok keeps_pop hip fun v m' hv => ?_
  obtain ⟨last, -, rfl⟩ := eq_of_pop hv
  refine bind_eq_ok keeps_store hip fun s m' hs => ?_
  cases hs
  refine follows_bind (keeps_settle _) (fun _ _ => ?_) _ hip
  refine follows_ofDirect (setItem_eq_ok hlength key v) ?_
  refine follows_bind (Built.orFail _).keeps fun s _ => ?_
  exact follows_bind (keeps_setStore s) fun _ _ => follows_pure _

theorem execute_name (op : NameOp) (arg : UInt32) (index : Nat) :
    execute ⟨.name op, arg⟩ index m = (match (m.frame.code.pool op.pool)[arg.toNat]? with
      | some x => onName op arg.toNat x >>= fun _ => pure .next
      | none => ofExec (fatal (.nameRange arg.toNat)) : Guarded Signal) m := rfl

theorem execute_eq_ok (ins : Instruction) (index : Nat) (hip : 0 < m.frame.ip)
    (hslots : m.frame.fast.length = m.frame.code.varNames.length) (hcount : m.Countable) :
    execute ins index m = .ok (Bytewright.execute ins index m) := by
  obtain ⟨op, arg⟩ := ins
  have hmachine := follows_ofExec (execute_moves ⟨op, arg⟩ index) m hip
  cases op with
  | bare op =>
    cases op with
    | binarySubscr => exact binarySubscr_eq_ok arg index hip hcount
    | storeSubscr => exact storeSubscr_eq_ok arg index hip hcount
    | _ => exact hmachine
  | name op =>
    rw [execute_name, Exec.execute_name]
    cases hx : (m.frame.code.pool op.pool)[arg.toNat]? with
    | none => exact follows_ofExec (keeps_fatal (q := fun _ => True) (by simp)).moves m hip
    | some x =>
      refine answer_eq_ok (onName_eq_ok op x hip fun hpool => ?_) _
      rw [hpool] at hx
      rw [hslots]
      exact (List.getElem?_eq_some_iff.1 hx).1
  | binaryOp => exact binaryOp_follows arg index m hip
  | call op => exact onCall_follows op arg m hip
  | _ => exact hmachine

end Direct

/-! ### Runs -/

/-- There is a slot for each fast local. -/
def Frame.Slotted (f : Frame) : Prop := f.fast.length = f.code.varNames.length

theorem Frame.SameUnit.slotted {f g : Frame} (h : f.SameUnit g) (hf : f.Slotted) : g.Slotted := by
  rw [Frame.Slotted, h.slots, h.code]
  exact hf

theorem Frame.carries_slotted (code : List Instruction) :
    Frame.Carries code Frame.Slotted Frame.Slotted where
  fresh hbind _ := Direct.length_fast_of_bind hbind
  next _ hf _ hm := (sameUnit_of_execute hm).1.slotted hf
  call _ hf _ hm := (sameUnit_of_execute hm).1.slotted hf
  ret hc _ := hc

theorem Frame.handles_slotted (code : List Instruction) :
    Frame.Handles code Frame.Slotted Frame.Slotted Frame.Slotted where
  raise _ hf _ hm := (leaves_of_execute hm).sameUnit.slotted hf
  wait hc := hc
  handle _ hg hh := by
    unfold Frame.enterHandler? at hh
    split at hh
    · cases hh
    · cases hh
      exact hg

theorem Run.slotted_of_steps {limits : Limits} {r r' : Run}
    (hr : ∀ f ∈ r.frame :: r.callers, f.Slotted)
    (hsteps : Relation.ReflTransGen (Run.Step limits) r r') :
    ∀ f ∈ r'.frame :: r'.callers, f.Slotted := by
  have hholds (code : List Instruction) : r'.Holds code Frame.Slotted Frame.Slotted := by
    induction hsteps with
    | refl =>
      exact ⟨fun _ => hr _ (mem_cons_self ..), fun c hc _ => hr c (mem_cons_of_mem _ hc)⟩
    | tail _ hstep ih =>
      exact ih.advance (Frame.carries_slotted code) (fun _ => Frame.handles_slotted code) hstep
  intro f hf
  rcases mem_cons.1 hf with rfl | hf
  · exact (hholds _).frame rfl
  · exact (hholds _).callers f hf rfl

/-- No direct access goes wrong.  Arguments are bound to a function slot by slot, whatever code it
has.  In every run of the frame, within any limits and whatever the memory holds, each frame has a
slot for the name of each fast local, and the next instruction does with direct accesses what the
machine does.  The sequences on the stack must have no more items than a word counts.  An
instruction answers, raises an exception or cuts the run off, but for one case: it crashes when a
comparison that it makes comes to no answer. -/
theorem accesses_in_range (f : Function) (args : List Value) (kwargs : Keywords)
    (s : Store) :
    Direct.bindFunction f args kwargs s = .ok (f.bind args kwargs s) ∧
      ∀ frame s', f.bind args kwargs s = .ok (frame, s') → ∀ limits memory r,
        Relation.ReflTransGen (Run.Step limits) { frame, memory } r →
        (∀ g ∈ r.frame :: r.callers, g.fast.length = g.code.varNames.length) ∧
        ∀ ins, r.frame.code.code[r.frame.ip]? = some ins →
          (Moment.Countable ⟨{ r.frame with ip := r.frame.ip + 1 }, r.memory⟩ →
            Direct.execute ins r.frame.ip ⟨{ r.frame with ip := r.frame.ip + 1 }, r.memory⟩ =
              .ok (execute ins r.frame.ip ⟨{ r.frame with ip := r.frame.ip + 1 }, r.memory⟩)) ∧
          ((∃ m, execute ins r.frame.ip ⟨{ r.frame with ip := r.frame.ip + 1 }, r.memory⟩ =
            .error .crash m) ↔ ins.settles r.frame.stack r.memory.store = false) := by
  refine ⟨Direct.bindFunction_eq_ok f args kwargs s, ?_⟩
  intro frame s' hbind limits memory r hsteps
  have hslots := Run.slotted_of_steps (r := { frame, memory })
    (by simpa [Frame.Slotted] using Direct.length_fast_of_bind hbind) hsteps
  refine ⟨hslots, fun ins _ => ⟨fun hcount => ?_, execute_crashes_iff ins r.frame r.memory⟩⟩
  exact Direct.execute_eq_ok ins _ (Nat.succ_pos _) (hslots r.frame (List.mem_cons_self ..)) hcount

def lastItem : Code where
  argCount := 1
  stackSize := 0
  flags := ⟨12⟩
  code := [⟨.name .loadFast, 0⟩, ⟨.loadConst, 0⟩, ⟨.bare .binarySubscr, 0⟩, ⟨.name .loadFast, 3⟩]
  varNames := ["items", "rest", "options"]
  fileName := "<raw>"
  name := "raw"
  firstLine := 0
  consts := [.int (-1)]

def lastItemFrame (ip : Nat) (stack : List Value) : Frame :=
  { code := lastItem, names := ⟨0⟩, globals := ⟨0⟩, closure := [], stack, ip
    fast := [some (.tuple [.int 4, .int 5]), some (.tuple [.int 6]), some (.dict ⟨0⟩)] }

/-- The last item of a pair is found at the index before the first one. -/
theorem lastItem_accesses_in_range :
    ∃ s', FunctionOf.bind ⟨0, lastItem, [], ⟨0⟩, []⟩ [.tuple [.int 4, .int 5], .int 6]
        [("n", .none)] {} = .ok (lastItemFrame 0 [], s') ∧
      ∃ r, Relation.ReflTransGen (Run.Step {})
        { frame := lastItemFrame 0 [], memory := ⟨s', []⟩ } r ∧
        r.frame = lastItemFrame 2 [.int (-1), .tuple [.int 4, .int 5]] ∧
        Direct.execute ⟨.bare .binarySubscr, 0⟩ 2 ⟨{ r.frame with ip := 3 }, r.memory⟩ =
          .ok (execute ⟨.bare .binarySubscr, 0⟩ 2 ⟨{ r.frame with ip := 3 }, r.memory⟩) := by
  obtain ⟨s', hbind⟩ : ∃ s', FunctionOf.bind ⟨0, lastItem, [], ⟨0⟩, []⟩
      [.tuple [.int 4, .int 5], .int 6] [("n", .none)] {} = .ok (lastItemFrame 0 [], s') := ⟨_, rfl⟩
  have hfirst : Run.Step {} { frame := lastItemFrame 0 [], memory := ⟨s', []⟩ }
      ⟨lastItemFrame 1 [.tuple [.int 4, .int 5]], [], 1, ⟨s', []⟩⟩ := rfl
  have hsecond : Run.Step {} ⟨lastItemFrame 1 [.tuple [.int 4, .int 5]], [], 1, ⟨s', []⟩⟩
      ⟨lastItemFrame 2 [.int (-1), .tuple [.int 4, .int 5]], [], 2, ⟨s', []⟩⟩ := rfl
  have hsteps := (Relation.ReflTransGen.single hfirst).tail hsecond
  refine ⟨s', hbind, _, hsteps, rfl, ?_⟩
  refine (((accesses_in_range _ _ _ _).2 _ _ hbind {} _ _ hsteps).2 _ rfl).1 ?_
  intro v hv n hn
  simp only [lastItemFrame, List.mem_cons, List.not_mem_nil, or_false] at hv
  rcases hv with rfl | rfl
  · cases hn
  · cases hn
    decide

/-- The call comes to an instruction that crashes: the map is held for the change while it is
compared, as the new key, with the key that is there. -/
theorem heldMap_crashes :
    selfHolding.ComesTo (.function selfInsertion) [] [] selfInsertionRun ∧
      ∃ m, execute ⟨.bare .storeSubscr, 0⟩ 3 ⟨selfInsertionRun.frame.ahead, selfHolding.memory⟩ =
        .error .crash m :=
  ⟨comesTo_selfInsertionRun, (execute_crashes_iff _ selfInsertionRun.frame _).2 (by decide)⟩

end Bytewright
