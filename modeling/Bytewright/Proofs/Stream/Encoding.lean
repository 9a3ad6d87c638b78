import Bytewright.Proofs.Stream.Interning
import Bytewright.Proofs.Stream.Layout
import Bytewright.Stream.OfCode

/-!
# Encoding operations and reading them back

Encoding what was read back, from pools that are at least as full, gives the same instructions and
the same final pools.
-/

namespace Bytewright

open List

/-! ### Arguments that are numbers -/

theorem ArithOp.ofIndex?_index (op : ArithOp) :
    ArithOp.ofIndex? (UInt32.ofNat op.index).toNat = some op := by
  cases op <;> rfl

theorem CompareOp.ofIndex?_index (op : CompareOp) :
    CompareOp.ofIndex? (UInt32.ofNat op.index).toNat = some op := by
  cases op <;> rfl

theorem splitArgSpec_argSpec (args kwds : UInt8) :
    splitArgSpec (argSpec args kwds) = (args, kwds) := by
  have hargs : (argSpec args kwds).toUInt8 = args := by
    rw [← UInt8.toBitVec_inj]
    ext i hi
    simp [argSpec]
  have hkwds : (argSpec args kwds >>> 8).toUInt8 = kwds := by
    rw [← UInt8.toBitVec_inj]
    ext i hi
    have hbyte : 8 + i < 32 := by omega
    have hnext : ¬8 + i < 8 := by omega
    simp [argSpec, hi, hbyte, hnext]
  rw [splitArgSpec, hargs, hkwds]

variable {p' : Pools}

namespace Assemble

/-! ### Pools -/

def Pools.get (p : Pools) : NamePool → List String
  | .locals => p.varNames
  | .names => p.names
  | .free => p.freeVars

def Pools.set (p : Pools) : NamePool → List String → Pools
  | .locals, xs => { p with varNames := xs }
  | .names, xs => { p with names := xs }
  | .free, xs => { p with freeVars := xs }

variable {p q : Pools} {ops : Stream} {index : Nat} {arg : UInt32} {o : JumpOp} {l : Label}
  {pool : NamePool}

@[simp] theorem Pools.consts_set (p : Pools) (pool : NamePool) (xs : List String) :
    (p.set pool xs).consts = p.consts := by
  cases pool <;> rfl

@[simp] theorem Pools.get_set_self (p : Pools) (pool : NamePool) (xs : List String) :
    (p.set pool xs).get pool = xs := by
  cases pool <;> rfl

@[simp] theorem Pools.get_withConsts (p : Pools) (cs : List Const) (pool : NamePool) :
    Pools.get { p with consts := cs } pool = p.get pool := by
  cases pool <;> rfl

theorem Pools.get_set_of_ne (p : Pools) {other : NamePool} (h : other ≠ pool) (xs : List String) :
    (p.set pool xs).get other = p.get other := by
  cases pool <;> cases other <;> simp [Pools.set, Pools.get] at h ⊢

@[ext] theorem Pools.ext_get (hconsts : p.consts = q.consts)
    (hget : ∀ pool, p.get pool = q.get pool) : p = q := by
  obtain ⟨_, _, _, _⟩ := p
  have hlocals := hget .locals
  have hnames := hget .names
  have hfree := hget .free
  simp only [Pools.get] at hlocals hnames hfree hconsts
  rw [hlocals, hnames, hfree, hconsts]

theorem Pools.const_eq (p : Pools) (c : Const) :
    p.const c = ((intern Const.sameAs p.consts c).1,
      { p with consts := (intern Const.sameAs p.consts c).2 }) := rfl

theorem Pools.name_eq (p : Pools) (pool : NamePool) (x : String) :
    p.name pool x = ((intern (· == ·) (p.get pool) x).1,
      p.set pool (intern (· == ·) (p.get pool) x).2) := by
  cases pool <;> rfl

inductive Pools.Step (p : Pools) : Pools → Prop
  | same : Step p p
  | const {c : Const} {i : Nat} {k : Const} {pool' : List Const}
      (h : Interned Const.sameAs p.consts c i k pool') : Step p { p with consts := pool' }
  | name (pool : NamePool) {x y : String} {i : Nat} {pool' : List String}
      (h : Interned (· == ·) (p.get pool) x i y pool') : Step p (p.set pool pool')

/-- The pools of `q` go on from those of `p`. -/
structure Pools.Upto (p q : Pools) : Prop where
  consts : p.consts <+: q.consts
  names : ∀ pool, p.get pool <+: q.get pool

theorem Pools.Upto.refl (p : Pools) : p.Upto p := ⟨prefix_rfl, fun _ => prefix_rfl⟩

theorem Pools.Upto.trans {r : Pools} (h : p.Upto q) (h' : q.Upto r) : p.Upto r :=
  ⟨h.consts.trans h'.consts, fun pool => (h.names pool).trans (h'.names pool)⟩

theorem Pools.Step.upto (h : p.Step q) : p.Upto q := by
  cases h with
  | same => exact .refl p
  | const h => exact ⟨h.prefix_of, fun pool => (get_withConsts p _ pool).symm ▸ prefix_rfl⟩
  | name pool h =>
    refine ⟨by rw [consts_set], fun other => ?_⟩
    by_cases hother : other = pool
    · subst hother
      rw [get_set_self]
      exact h.prefix_of
    · rw [get_set_of_ne p hother]

theorem Pools.Step.length_le (h : p.Step q) :
    q.consts.length ≤ p.consts.length + 1 ∧
      ∀ pool, (q.get pool).length ≤ (p.get pool).length + 1 := by
  cases h with
  | same => exact ⟨Nat.le_succ _, fun _ => Nat.le_succ _⟩
  | const h => exact ⟨h.length_le, fun pool => by rw [get_withConsts]; exact Nat.le_succ _⟩
  | name pool h =>
    refine ⟨by rw [consts_set]; exact Nat.le_succ _, fun other => ?_⟩
    by_cases hother : other = pool
    · subst hother
      rw [get_set_self]
      exact h.length_le
    · rw [get_set_of_ne p hother]
      exact Nat.le_succ _

def Pools.Distinct (p : Pools) : Prop := p.consts.Pairwise fun z w => z.sameAs w = false

theorem Pools.Step.distinct (h : p.Step q) (hp : p.Distinct) : q.Distinct := by
  cases h with
  | same => exact hp
  | const h => exact h.pairwise hp
  | name pool h => rwa [Distinct, consts_set]

theorem Pools.Step.nodup (h : p.Step q) (hp : (p.get pool).Nodup) : (q.get pool).Nodup := by
  cases h with
  | same => exact hp
  | const h => rwa [get_withConsts]
  | name other h =>
    by_cases hother : pool = other
    · subst hother
      rw [get_set_self]
      have hpair : (p.get pool).Pairwise fun z w => (z == w) = false :=
        hp.imp fun hne => beq_eq_false_iff_ne.2 hne
      exact (h.pairwise hpair).imp fun hne => beq_eq_false_iff_ne.1 hne
    · rwa [get_set_of_ne p hother]

/-! ### Operations -/

theorem argument_jump_eq_ok_iff :
    argument ops index p (.jump o l) = .ok (arg, p') ↔ jumpArg ops index o l = .ok arg ∧
      p' = p := by
  rw [argument]
  cases jumpArg ops index o l with
  | error e => simp [Except.map]
  | ok n => simp [Except.map, eq_comm]

theorem step_of_argument {op : Op} (h : argument ops index p op = .ok (arg, p')) : p.Step p' := by
  cases op with
  | const c =>
    obtain ⟨i, k, -, hk⟩ := interned_intern Const.sameAs p.consts c
    cases h
    exact .const hk
  | name o x =>
    obtain ⟨i, y, -, hy⟩ := interned_intern (· == ·) (p.get o.pool) x
    rw [argument, Pools.name_eq] at h
    cases h
    exact .name o.pool hy
  | jump o l =>
    rw [(argument_jump_eq_ok_iff.1 h).2]
    exact .same
  | _ =>
    cases h
    exact .same

theorem target_of_jumpArg (hsize : size ops < 4294967296) (h : jumpArg ops index o l = .ok arg) :
    ∃ place, position? l 0 ops = some place ∧
      Instruction.target ⟨.jump o, arg⟩ index = some place := by
  rw [jumpArg] at h
  cases hplace : position? l 0 ops with
  | none =>
    rw [hplace] at h
    cases h
  | some place =>
    rw [hplace] at h
    have hle := (position?_bounds hplace).2
    refine ⟨place, rfl, ?_⟩
    cases hrel : o.isRelative with
    | false =>
      simp only [hrel, Bool.false_eq_true, if_false, Except.ok.injEq] at h
      subst h
      simp only [Instruction.target, hrel, Bool.false_eq_true, if_false, Option.some.injEq]
      exact UInt32.toNat_ofNat_of_lt' (show place < 4294967296 by omega)
    | true =>
      simp only [hrel, if_true] at h
      split at h
      · cases h
      · cases h
        simp only [Instruction.target, hrel, if_true, Option.some.injEq]
        rw [UInt32.toNat_ofNat_of_lt' (show place - index - 1 < 4294967296 by omega)]
        omega

theorem exists_position?_of_argument (hsize : size ops < 4294967296)
    (h : argument ops index p (.jump o l) = .ok (arg, p')) :
    ∃ place, position? l 0 ops = some place ∧
      Instruction.target ⟨.jump o, arg⟩ index = some place :=
  target_of_jumpArg hsize (argument_jump_eq_ok_iff.1 h).1

theorem jumpArg_of_target {place : Nat} (hplace : position? l 0 ops = some place)
    (h : Instruction.target ⟨.jump o, arg⟩ index = some place) :
    jumpArg ops index o l = .ok arg := by
  simp only [Instruction.target, Option.some.injEq] at h
  rw [jumpArg, hplace]
  cases hrel : o.isRelative with
  | false =>
    simp only [hrel, Bool.false_eq_true, if_false] at h ⊢
    rw [← h, UInt32.ofNat_toNat]
  | true =>
    simp only [hrel, if_true] at h ⊢
    have harg : place - index - 1 = arg.toNat := by omega
    rw [if_neg (by omega), harg, UInt32.ofNat_toNat]

structure Pools.Between (p q last : Pools) : Prop where
  consts : q.consts = p.consts
  lower : ∀ pool, p.get pool <+: q.get pool
  upper : ∀ pool, q.get pool <+: last.get pool

theorem Pools.Between.eq {last : Pools} (h : last.Between q last) : q = last := by
  refine Pools.ext_get h.consts fun pool => ?_
  exact (h.upper pool).eq_of_length_le (h.lower pool).length_le

end Assemble

/-! ### Reading back -/

open Assemble OfCode

/-- The same up to the label of a jump and the choice among constants that are the same. -/
def Op.ReadBack (ops : Stream) (targets : Targets) : Op → Op → Prop
  | .const c, op' => ∃ k, op' = .const k ∧ (k = c ∨ k.sameAs c = true)
  | .jump o l, op' => ∃ place l', op' = .jump o l' ∧ position? l 0 ops = some place ∧
      targets.lookup place = some l'
  | op, op' => op' = op

theorem Op.ReadBack.congr {α : Type} (f : Op → α) (hconst : ∀ k k', f (.const k) = f (.const k'))
    (hjump : ∀ o l l', f (.jump o l) = f (.jump o l')) {ops : Stream} {targets : Targets}
    {op op' : Op} (h : op.ReadBack ops targets op') : f op' = f op := by
  cases op with
  | const c =>
    obtain ⟨k, rfl, -⟩ := h
    exact hconst k c
  | jump o l =>
    obtain ⟨place, l', rfl, -, -⟩ := h
    exact hjump o l' l
  | _ => exact congrArg f h

def CodeOf.pools (c : Code) : Pools := ⟨c.consts, c.names, c.varNames, c.freeVars⟩

@[simp] theorem CodeOf.get_pools (c : Code) (pool : NamePool) : c.pools.get pool = c.pool pool := by
  cases pool <;> rfl

/-- Instructions and operands can be counted in four bytes. -/
structure CodeOf.Addressable (c : Code) : Prop where
  code : c.code.length < 4294967296
  consts : c.consts.length < 4294967296
  names : ∀ pool, (c.pool pool).length < 4294967296

namespace Assemble

variable {index : Nat} {ops rest : Stream} {p last : Pools} {code : List Instruction} {op : Op}
  {c : Code} {targets : Targets} {opcode : Opcode}

theorem operation_of_argument {arg : UInt32} (hop : op.opcode = some opcode)
    (h : argument ops index p op = .ok (arg, p')) (hc : c.Addressable)
    (hsize : size ops < 4294967296) (hp : p.Distinct) (hlast : p'.Upto c.pools)
    (htarget : ∀ place, Instruction.target ⟨opcode, arg⟩ index = some place →
      (targets.lookup place).isSome) :
    ∃ op', operation c targets index ⟨opcode, arg⟩ = .ok op' ∧ op.ReadBack ops targets op' ∧
      ∀ (ops' : Stream) (q : Pools), p.Between q c.pools →
        (∀ place l, targets.lookup place = some l → position? l 0 ops' = some place) →
        ∃ q', argument ops' index q op' = .ok (arg, q') ∧ p'.Between q' c.pools := by
  cases op with
  | line | mark => cases hop
  | bare | count =>
    cases hop
    cases h
    exact ⟨_, rfl, rfl, fun ops' q hq _ => ⟨q, rfl, hq⟩⟩
  | arith | compare | call =>
    cases hop
    cases h
    refine ⟨_, ?_, rfl, fun ops' q hq _ => ⟨q, rfl, hq⟩⟩
    simp only [operation, ArithOp.ofIndex?_index, CompareOp.ofIndex?_index, splitArgSpec_argSpec]
  | const k =>
    cases hop
    obtain ⟨i, y, hi, hy⟩ := interned_intern Const.sameAs p.consts k
    rw [argument, Pools.const_eq, hi] at h
    simp only [Except.ok.injEq, Prod.mk.injEq] at h
    obtain ⟨rfl, rfl⟩ := h
    have hget : c.consts[i]? = some y := getElem?_mono hlast.consts hy.get_eq
    have hplace : (UInt32.ofNat i).toNat = i := by
      have := (List.getElem?_eq_some_iff.1 hget).1
      exact UInt32.toNat_ofNat_of_lt' (this.trans hc.consts)
    refine ⟨.const y, ?_, ⟨y, rfl, ?_⟩, fun ops' q hq _ => ?_⟩
    · simp only [operation, hplace, hget]
    · rcases hy.found_or_added with ⟨hsame, -⟩ | ⟨rfl, -, -⟩
      · exact .inr hsame
      · exact .inl rfl
    · refine ⟨{ q with consts := (intern Const.sameAs p.consts k).2 }, ?_, rfl, ?_, ?_⟩
      · have hagain := hy.again_const hp
        rw [argument, Pools.const_eq, hq.consts, hagain]
      · simpa using hq.lower
      · simpa using hq.upper
  | name o x =>
    cases hop
    obtain ⟨i, y, hi, hy⟩ := interned_intern (· == ·) (p.get o.pool) x
    rw [argument, Pools.name_eq, hi] at h
    simp only [Except.ok.injEq, Prod.mk.injEq] at h
    obtain ⟨rfl, rfl⟩ := h
    have hpool : (intern (· == ·) (p.get o.pool) x).2 <+: c.pool o.pool := by
      have := hlast.names o.pool
      rwa [Pools.get_set_self, CodeOf.get_pools] at this
    have hget : (c.pool o.pool)[i]? = some y := getElem?_mono hpool hy.get_eq
    have hplace : (UInt32.ofNat i).toNat = i := by
      have := (List.getElem?_eq_some_iff.1 hget).1
      exact UInt32.toNat_ofNat_of_lt' (this.trans (hc.names o.pool))
    have hyx : y = x := (hy.again_text List.prefix_rfl hy.prefix_of List.prefix_rfl).1
    subst hyx
    refine ⟨.name o y, ?_, rfl, fun ops' q hq _ => ?_⟩
    · simp only [operation, hplace, hget]
    · have hupper := hq.upper o.pool
      rw [CodeOf.get_pools] at hupper
      obtain ⟨-, pool', hagain, hlower', hupper'⟩ := hy.again_text (hq.lower o.pool) hupper hpool
      refine ⟨q.set o.pool pool', ?_, ?_, fun pool => ?_, fun pool => ?_⟩
      · rw [argument, Pools.name_eq, hagain]
      · rw [Pools.consts_set, Pools.consts_set, hq.consts]
      · by_cases heq : pool = o.pool
        · rw [heq, Pools.get_set_self, Pools.get_set_self]
          exact hlower'
        · rw [Pools.get_set_of_ne _ heq, Pools.get_set_of_ne _ heq]
          exact hq.lower pool
      · by_cases heq : pool = o.pool
        · rw [heq, Pools.get_set_self, CodeOf.get_pools]
          exact hupper'
        · rw [Pools.get_set_of_ne _ heq]
          exact hq.upper pool
  | jump o l =>
    cases hop
    obtain ⟨hjump, rfl⟩ := argument_jump_eq_ok_iff.1 h
    obtain ⟨place, hplace, hleads⟩ := target_of_jumpArg hsize hjump
    obtain ⟨l', hl'⟩ := Option.isSome_iff_exists.1 (htarget place hleads)
    refine ⟨.jump o l', ?_, ⟨place, l', rfl, hplace, hl'⟩, fun ops' q hq hplaces => ?_⟩
    · simp only [operation, hleads, Option.bind_some, hl']
    · exact ⟨q, argument_jump_eq_ok_iff.2 ⟨jumpArg_of_target (hplaces place l' hl') hleads,
        rfl⟩, hq⟩

/-! ### Streams -/

theorem encode_cons_of_marker (hop : op.opcode = none) (ops : Stream) (index : Nat) (p : Pools)
    (rest : Stream) : encode ops index p (op :: rest) = encode ops index p rest := by
  rw [encode, hop]

theorem encode_cons_eq_ok_iff (hop : op.opcode = some opcode) :
    encode ops index p (op :: rest) = .ok (code, last) ↔
      ∃ arg p' tail, argument ops index p op = .ok (arg, p') ∧
        encode ops (index + 1) p' rest = .ok (tail, last) ∧ code = ⟨opcode, arg⟩ :: tail := by
  rw [encode, hop]
  simp only [bind, Except.bind]
  constructor
  · intro h
    cases harg : argument ops index p op with
    | error e => simp only [harg, reduceCtorEq] at h
    | ok result =>
      obtain ⟨arg, p'⟩ := result
      simp only [harg] at h
      cases htail : encode ops (index + 1) p' rest with
      | error e => simp only [htail, reduceCtorEq] at h
      | ok result =>
        obtain ⟨tail, last'⟩ := result
        simp only [htail, pure, Except.pure, Except.ok.injEq, Prod.mk.injEq] at h
        obtain ⟨rfl, rfl⟩ := h
        exact ⟨arg, p', tail, rfl, htail, rfl⟩
  · rintro ⟨arg, p', tail, harg, htail, rfl⟩
    simp only [harg, htail, pure, Except.pure]

/-- Induction over an encoded stream: markers leave nothing, other operations one instruction. -/
@[elab_as_elim]
theorem encode_induction
    {motive : ∀ index rest p code, encode ops index p rest = .ok (code, last) → Prop}
    (nil : ∀ index, motive index [] last [] rfl)
    (marker : ∀ {index p op rest code h'}, op.opcode = none →
      ∀ h : encode ops index p rest = .ok (code, last),
        motive index rest p code h → motive index (op :: rest) p code h')
    (real : ∀ {index p p' op rest opcode arg code h'}, op.opcode = some opcode →
      argument ops index p op = .ok (arg, p') →
      ∀ h : encode ops (index + 1) p' rest = .ok (code, last), motive (index + 1) rest p' code h →
        motive index (op :: rest) p (⟨opcode, arg⟩ :: code) h')
    (h : encode ops index p rest = .ok (code, last)) : motive index rest p code h := by
  induction rest generalizing index p code with
  | nil =>
    cases h
    exact nil index
  | cons op rest ih =>
    cases hop : op.opcode with
    | none => exact marker hop _ (ih (encode_cons_of_marker hop ops index p rest ▸ h))
    | some opcode =>
      obtain ⟨arg, p', tail, harg, htail, rfl⟩ := (encode_cons_eq_ok_iff hop).1 h
      exact real hop harg htail (ih htail)

theorem encode_markers_append {front : Stream} (hfront : ∀ op ∈ front, op.opcode = none)
    (ops : Stream) (index : Nat) (p : Pools) (rest : Stream) :
    encode ops index p (front ++ rest) = encode ops index p rest := by
  induction front with
  | nil => rfl
  | cons op front ih =>
    rw [cons_append, encode_cons_of_marker (hfront op mem_cons_self)]
    exact ih fun op' hop' => hfront op' (mem_cons_of_mem _ hop')

theorem encode_append_markers {back : Stream} (hback : ∀ op ∈ back, op.opcode = none)
    (ops : Stream) (index : Nat) (p : Pools) (rest : Stream) :
    encode ops index p (rest ++ back) = encode ops index p rest := by
  induction rest generalizing index p with
  | nil =>
    rw [nil_append, ← append_nil back]
    exact encode_markers_append hback ops index p []
  | cons op rest ih =>
    rw [cons_append]
    cases hop : op.opcode with
    | none => rw [encode_cons_of_marker hop, encode_cons_of_marker hop, ih]
    | some opcode =>
      rw [encode, encode, hop]
      simp only [ih]

theorem encode_append_eq_ok_iff {a b : Stream} :
    encode ops index p (a ++ b) = .ok (code, last) ↔
      ∃ mid front back, encode ops index p a = .ok (front, mid) ∧
        encode ops (index + size a) mid b = .ok (back, last) ∧ code = front ++ back := by
  induction a generalizing index p code with
  | nil =>
    constructor
    · intro h
      exact ⟨p, [], code, rfl, h, rfl⟩
    · rintro ⟨mid, front, back, hfront, hback, rfl⟩
      cases hfront
      exact hback
  | cons op a ih =>
    cases hop : op.opcode with
    | none =>
      rw [cons_append, encode_cons_of_marker hop, encode_cons_of_marker hop, ih,
        size_cons_of_not_isReal (isReal_of_opcode_eq_none hop)]
    | some opcode =>
      rw [cons_append, encode_cons_eq_ok_iff hop,
        size_cons_of_isReal (isReal_of_opcode hop), Nat.add_comm (size a),
        ← Nat.add_assoc]
      constructor
      · rintro ⟨arg, p', tail, harg, htail, rfl⟩
        obtain ⟨mid, front, back, hfront, hback, rfl⟩ := ih.1 htail
        exact ⟨mid, ⟨opcode, arg⟩ :: front, back,
          (encode_cons_eq_ok_iff hop).2 ⟨arg, p', front, harg, hfront, rfl⟩, hback, rfl⟩
      · rintro ⟨mid, front, back, hfront, hback, rfl⟩
        obtain ⟨arg, p', tail, harg, htail, rfl⟩ := (encode_cons_eq_ok_iff hop).1 hfront
        exact ⟨arg, p', tail ++ back, harg, ih.2 ⟨mid, tail, back, htail, hback, rfl⟩, rfl⟩

theorem length_of_encode (h : encode ops index p rest = .ok (code, last)) :
    code.length = size rest := by
  induction h using encode_induction with
  | nil => rfl
  | marker hop _ ih => rw [size_cons_of_not_isReal (isReal_of_opcode_eq_none hop), ih]
  | real hop _ _ ih => rw [size_cons_of_isReal (isReal_of_opcode hop), length_cons, ih]

theorem keeps_of_encode {P : Pools → Prop} (hstep : ∀ op ∈ rest, ∀ index p arg p',
      argument ops index p op = .ok (arg, p') → P p → P p')
    (h : encode ops index p rest = .ok (code, last)) (hp : P p) : P last := by
  induction h using encode_induction with
  | nil => exact hp
  | marker _ _ ih => exact ih (forall_mem_cons.1 hstep).2 hp
  | real _ harg _ ih =>
    obtain ⟨hfirst, hrest⟩ := forall_mem_cons.1 hstep
    exact ih hrest (hfirst _ _ _ _ harg hp)

theorem upto_of_encode (h : encode ops index p rest = .ok (code, last)) : p.Upto last :=
  keeps_of_encode (fun _ _ _ _ _ _ harg hp => hp.trans (step_of_argument harg).upto) h (.refl p)

theorem length_le_of_encode (h : encode ops index p rest = .ok (code, last)) :
    last.consts.length ≤ p.consts.length + size rest ∧
      ∀ pool, (last.get pool).length ≤ (p.get pool).length + size rest := by
  induction h using encode_induction with
  | nil => exact ⟨le_rfl, fun _ => le_rfl⟩
  | marker hop _ ih => rwa [size_cons_of_not_isReal (isReal_of_opcode_eq_none hop)]
  | real hop harg _ ih =>
    obtain ⟨hconsts, hnames⟩ := ih
    obtain ⟨hconsts', hnames'⟩ := (step_of_argument harg).length_le
    rw [size_cons_of_isReal (isReal_of_opcode hop)]
    refine ⟨by omega, fun pool => ?_⟩
    have hle := hnames pool
    have hle' := hnames' pool
    omega

theorem opcode_of_mem_markAt (h : op ∈ markAt targets index) : op.opcode = none := by
  simp only [markAt, Option.mem_toList, Option.map_eq_some_iff] at h
  obtain ⟨l, -, rfl⟩ := h
  rfl

theorem opcode_of_mem_lineAt (h : op ∈ lineAt c index) : op.opcode = none := by
  rw [lineAt] at h
  split at h
  · rw [mem_singleton.1 h]
    rfl
  · split at h
    · rw [mem_singleton.1 h]
      rfl
    · cases h

theorem operations_cons_eq_ok_iff {i : Instruction} {rest : List Instruction} :
    operations c targets index (i :: rest) = .ok ops ↔
      ∃ op tail, operation c targets index i = .ok op ∧
        operations c targets (index + 1) rest = .ok tail ∧
        ops = markAt targets index ++ lineAt c index ++ op :: tail := by
  simp only [operations, bind, Except.bind, pure, Except.pure]
  constructor
  · intro h
    cases hop : operation c targets index i with
    | error e => simp only [hop, reduceCtorEq] at h
    | ok op =>
      simp only [hop] at h
      cases htail : operations c targets (index + 1) rest with
      | error e => simp only [htail, reduceCtorEq] at h
      | ok tail =>
        simp only [htail, Except.ok.injEq] at h
        exact ⟨op, tail, rfl, rfl, h.symm⟩
  · rintro ⟨op, tail, hop, htail, rfl⟩
    simp only [hop, htail]

/-- The operations that become instructions. -/
def reals (ops : Stream) : Stream := ops.filter Op.isReal

theorem reals_append (a b : Stream) : reals (a ++ b) = reals a ++ reals b := filter_append ..

theorem reals_of_markers (h : ∀ op ∈ ops, op.opcode = none) : reals ops = [] := by
  refine filter_eq_nil_iff.2 fun op hop => ?_
  rw [isReal_eq_isSome_opcode, h op hop]
  simp

theorem operations_of_encode
    (h : encode ops index p rest = .ok (code, c.pools)) (hc : c.Addressable)
    (hsize : size ops < 4294967296) (hp : p.Distinct)
    (htarget : ∀ (k : Nat) (i : Instruction) place, code[k]? = some i →
      i.target (index + k) = some place →
      (targets.lookup place).isSome) :
    ∃ ops', operations c targets index code = .ok ops' ∧
      List.Forall₂ (Op.ReadBack ops targets) (reals rest) (reals ops') ∧
      ∀ (whole : Stream) (q : Pools), p.Between q c.pools →
        (∀ place l, targets.lookup place = some l → position? l 0 whole = some place) →
        encode whole index q ops' = .ok (code, c.pools) := by
  induction h using encode_induction with
  | nil => exact ⟨[], rfl, .nil, fun whole q hq _ => by rw [hq.eq]; rfl⟩
  | marker hop _ ih =>
    obtain ⟨ops', hread, hreals, hagain⟩ := ih hp htarget
    exact ⟨ops', hread, by rwa [reals,
      filter_cons_of_neg (by simp [isReal_of_opcode_eq_none hop])], hagain⟩
  | @real index _ _ _ _ opcode arg tail _ hop harg htail ih =>
    have hstep := step_of_argument harg
    obtain ⟨op', hread, hback, hagain⟩ := operation_of_argument hop harg hc hsize hp
      (upto_of_encode htail) fun place => htarget 0 ⟨opcode, arg⟩ place rfl
    obtain ⟨ops', hread', hback', hagain'⟩ := ih (hstep.distinct hp)
      fun k i place hi hplace => htarget (k + 1) i place hi
        (by rwa [Nat.add_assoc, Nat.add_comm 1] at hplace)
    have hop' : op'.opcode = some opcode := by
      rw [hback.congr Op.opcode (fun _ _ => rfl) (fun _ _ _ => rfl), hop]
    have hmarkers : ∀ o ∈ markAt targets index ++ lineAt c index, o.opcode = none := by
      intro o ho
      rcases mem_append.1 ho with ho | ho
      · exact opcode_of_mem_markAt ho
      · exact opcode_of_mem_lineAt ho
    refine ⟨_, operations_cons_eq_ok_iff.2 ⟨op', ops', hread, hread', rfl⟩, ?_,
      fun whole q hq hplaces => ?_⟩
    · rw [reals_append, reals_of_markers hmarkers, nil_append, reals, reals,
        filter_cons_of_pos (isReal_of_opcode hop),
        filter_cons_of_pos (isReal_of_opcode hop')]
      exact .cons hback hback'
    · obtain ⟨q', harg', hq'⟩ := hagain whole q hq hplaces
      rw [encode_markers_append hmarkers, encode_cons_eq_ok_iff hop']
      exact ⟨arg, q', tail, harg', hagain' whole q' hq' hplaces, rfl⟩

end Assemble

end Bytewright
