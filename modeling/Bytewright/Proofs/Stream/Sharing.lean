import Bytewright.Proofs.Evaluate.Carry

/-!
# Constants that share a slot

Inside a nested unit the two zeros are taken for one another, and a unit that holds a NaN is not
found again.
-/

namespace Bytewright

open Assemble List

/-! ### Numbers -/

def Binary64.unsignedZero (x : Binary64) : Binary64 := if x.isZero then ⟨0⟩ else x

variable {x y : Binary64} {n m : Nat}

theorem Binary64.ext_magnitude (hsign : x.isNegative = y.isNegative)
    (hmagnitude : x.magnitude = y.magnitude) : x = y := by
  obtain ⟨x⟩ := x
  obtain ⟨y⟩ := y
  simp only [isNegative, magnitude, decide_eq_decide, Nat.pow_eq, Nat.reducePow] at hsign hmagnitude
  have hx := x.toNat_lt
  have hy := y.toNat_lt
  rw [Binary64.mk.injEq, ← UInt64.toNat_inj]
  omega

theorem Binary64.isZero_iff : x.isZero = true ↔ x.magnitude = 0 := by
  simp [isZero]

theorem Binary64.key_eq_zero_iff : x.key = 0 ↔ x.isZero = true := by
  rw [isZero_iff, key]
  split <;> omega

theorem Binary64.unsignedZero_eq_zero_iff : x.unsignedZero = ⟨0⟩ ↔ x.isZero = true := by
  rw [unsignedZero]
  split
  · next hx => exact iff_of_true rfl hx
  · next hx =>
    refine iff_of_false (fun h => hx ?_) hx
    rw [h]
    rfl

theorem Binary64.eq_of_key_eq (hx : x.isZero ≠ true) (h : x.key = y.key) : x = y := by
  rw [Ne, isZero_iff] at hx
  -- Keys of different signs are equal only at zero.
  have hsign : x.isNegative = y.isNegative := by
    simp only [key] at h
    split_ifs at h with hnx hny hny
    · rw [hnx, hny]
    · omega
    · omega
    · rw [Bool.eq_false_iff.2 hnx, Bool.eq_false_iff.2 hny]
  refine ext_magnitude hsign ?_
  simp only [key, hsign] at h
  split_ifs at h <;> omega

theorem Binary64.key_eq_iff : x.key = y.key ↔ x.unsignedZero = y.unsignedZero := by
  have hzero {x y : Binary64} (hy : y.isZero = true) :
      x.key = y.key ↔ x.unsignedZero = y.unsignedZero := by
    rw [key_eq_zero_iff.2 hy, unsignedZero_eq_zero_iff.2 hy, key_eq_zero_iff,
      unsignedZero_eq_zero_iff]
  by_cases hy : y.isZero = true
  · exact hzero hy
  by_cases hx : x.isZero = true
  · rw [eq_comm, hzero hx, eq_comm]
  · rw [unsignedZero, unsignedZero, if_neg hx, if_neg hy]
    exact ⟨eq_of_key_eq hx, congrArg key⟩

theorem Binary64.isNaN_unsignedZero (x : Binary64) : x.unsignedZero.isNaN = x.isNaN := by
  unfold unsignedZero
  split
  · next hx =>
    rw [isNaN, isNaN, isZero_iff.1 hx]
    rfl
  · rfl

theorem Binary64.equals_iff :
    x.equals y = true ↔ x.unsignedZero = y.unsignedZero ∧ x.isNaN = false := by
  simp only [equals, Bool.and_eq_true, Bool.not_eq_true', beq_iff_eq, key_eq_iff]
  constructor
  · rintro ⟨⟨hx, -⟩, hkey⟩
    exact ⟨hkey, hx⟩
  · rintro ⟨hkey, hx⟩
    refine ⟨⟨hx, ?_⟩, hkey⟩
    rw [← isNaN_unsignedZero, ← hkey, isNaN_unsignedZero, hx]

/-! ### Keys -/

mutual

/-- The constant with every zero in it unsigned. -/
def Const.unsignedZeros : Const → Const
  | .float x => .float x.unsignedZero
  | .tuple items => .tuple (unsignedZerosList items)
  | .code ⟨outline, consts⟩ => .code ⟨outline, unsignedZerosList consts⟩
  | c => c

def unsignedZerosList : List Const → List Const
  | [] => []
  | c :: cs => c.unsignedZeros :: unsignedZerosList cs

end

mutual

/-- No float in the constant is a NaN. -/
def Const.numeric : Const → Bool
  | .float x => !x.isNaN
  | .tuple items => allNumeric items
  | .code ⟨_, consts⟩ => allNumeric consts
  | _ => true

def allNumeric : List Const → Bool
  | [] => true
  | c :: cs => c.numeric && allNumeric cs

end

mutual

/-- What decides the slot of the constant. -/
def Const.slotKey : Const → Const
  | .tuple items => .tuple (slotKeys items)
  | .code unit => Const.unsignedZeros (.code unit)
  | c => c

def slotKeys : List Const → List Const
  | [] => []
  | c :: cs => c.slotKey :: slotKeys cs

end

mutual

/-- No float of a unit in the constant is a NaN. -/
def Const.unitsNumeric : Const → Bool
  | .tuple items => allUnitsNumeric items
  | .code unit => Const.numeric (.code unit)
  | _ => true

def allUnitsNumeric : List Const → Bool
  | [] => true
  | c :: cs => c.unitsNumeric && allUnitsNumeric cs

end

mutual

theorem Const.agrees_iff : ∀ a b : Const,
    a.agrees b = true ↔ a.unsignedZeros = b.unsignedZeros ∧ a.numeric = true
  | .none, b | .bool _, b | .int _, b | .str _, b => by
    cases b <;> simp [Const.agrees, Const.unsignedZeros, Const.numeric]
  | .float x, b => by
    cases b <;> simp [Const.agrees, Const.unsignedZeros, Const.numeric, Binary64.equals_iff]
  | .tuple items, b => by
    cases b <;> simp [Const.agrees, Const.unsignedZeros, Const.numeric, agreeList_iff items]
  | .code ⟨outline, consts⟩, b => by
    cases b <;> simp [Const.agrees, agreeCode, Const.unsignedZeros, Const.numeric,
      agreeList_iff consts, and_assoc]

theorem agreeList_iff : ∀ as bs : List Const,
    agreeList as bs = true ↔ unsignedZerosList as = unsignedZerosList bs ∧ allNumeric as = true
  | [], bs => by cases bs <;> simp [agreeList, unsignedZerosList, allNumeric]
  | a :: as, bs => by
    cases bs with
    | nil => simp [agreeList, unsignedZerosList]
    | cons b bs =>
      simp only [agreeList, Bool.and_eq_true, Const.agrees_iff a, agreeList_iff as,
        unsignedZerosList, allNumeric, cons.injEq]
      tauto

end

mutual

theorem Const.sameAs_iff : ∀ a b : Const,
    a.sameAs b = true ↔ a.slotKey = b.slotKey ∧ a.unitsNumeric = true
  | .code unit, .code unit' => by
    rw [Const.slotKey, Const.slotKey, Const.unitsNumeric, ← Const.agrees_iff, Const.sameAs,
      CodeOf.agrees, Const.agrees]
  | .tuple items, b => by
    cases b <;> simp [Const.sameAs, Const.slotKey, Const.unitsNumeric, Const.unsignedZeros,
      sameList_iff items]
  | .code ⟨_, _⟩, .none | .code ⟨_, _⟩, .bool _ | .code ⟨_, _⟩, .int _ | .code ⟨_, _⟩, .float _
  | .code ⟨_, _⟩, .str _ | .code ⟨_, _⟩, .tuple _ => by
    simp [Const.sameAs, Const.slotKey, Const.unsignedZeros]
  | .none, b | .bool _, b | .int _, b | .float _, b | .str _, b => by
    cases b <;> simp [Const.sameAs, Const.slotKey, Const.unitsNumeric, Const.unsignedZeros]

theorem sameList_iff : ∀ as bs : List Const,
    sameList as bs = true ↔ slotKeys as = slotKeys bs ∧ allUnitsNumeric as = true
  | [], bs => by cases bs <;> simp [sameList, slotKeys, allUnitsNumeric]
  | a :: as, bs => by
    cases bs with
    | nil => simp [sameList, slotKeys]
    | cons b bs =>
      simp only [sameList, Bool.and_eq_true, Const.sameAs_iff a, sameList_iff as, slotKeys,
        allUnitsNumeric, cons.injEq]
      tauto

end

mutual

theorem Const.numeric_unsignedZeros : ∀ c : Const, c.unsignedZeros.numeric = c.numeric
  | .float x => by rw [Const.unsignedZeros, Const.numeric, Const.numeric, x.isNaN_unsignedZero]
  | .tuple items => by
    rw [Const.unsignedZeros, Const.numeric, Const.numeric, allNumeric_unsignedZerosList items]
  | .code ⟨_, consts⟩ => by
    rw [Const.unsignedZeros, Const.numeric, Const.numeric, allNumeric_unsignedZerosList consts]
  | .none | .bool _ | .int _ | .str _ => rfl

theorem allNumeric_unsignedZerosList :
    ∀ cs : List Const, allNumeric (unsignedZerosList cs) = allNumeric cs
  | [] => rfl
  | c :: cs => by
    rw [unsignedZerosList, allNumeric, allNumeric, Const.numeric_unsignedZeros c,
      allNumeric_unsignedZerosList cs]

end

mutual

theorem Const.unitsNumeric_slotKey : ∀ c : Const, c.slotKey.unitsNumeric = c.unitsNumeric
  | .tuple items => by
    rw [Const.slotKey, Const.unitsNumeric, Const.unitsNumeric, allUnitsNumeric_slotKeys items]
  | .code ⟨outline, consts⟩ => Const.numeric_unsignedZeros (.code ⟨outline, consts⟩)
  | .none | .bool _ | .int _ | .float _ | .str _ => rfl

theorem allUnitsNumeric_slotKeys :
    ∀ cs : List Const, allUnitsNumeric (slotKeys cs) = allUnitsNumeric cs
  | [] => rfl
  | c :: cs => by
    rw [slotKeys, allUnitsNumeric, allUnitsNumeric, Const.unitsNumeric_slotKey c,
      allUnitsNumeric_slotKeys cs]

end

theorem Const.unitsNumeric_congr {a b : Const} (h : a.slotKey = b.slotKey) :
    a.unitsNumeric = b.unitsNumeric := by
  rw [← a.unitsNumeric_slotKey, h, b.unitsNumeric_slotKey]

/-! ### Slots -/

namespace Assemble

variable {pool pool' later later' : List Const} {a b y z : Const} {i j : Nat}

theorem Interned.slotKey_eq (h : Interned Const.sameAs pool a i y pool') :
    y.slotKey = a.slotKey := by
  rcases h.found_or_added with ⟨hsame, -⟩ | ⟨rfl, -⟩
  · exact ((Const.sameAs_iff y a).1 hsame).1
  · rfl

theorem Interned.place_eq_iff (ha : Interned Const.sameAs pool a i y pool') (hle : pool' <+: later)
    (hb : Interned Const.sameAs later b j z later') : i = j ↔ a.sameAs b = true := by
  have hy : later'[i]? = some y := getElem?_mono (hle.trans hb.prefix_of) ha.get_eq
  constructor
  · rintro rfl
    obtain rfl : y = z := Option.some.inj (hy.symm.trans hb.get_eq)
    have hsame : y.sameAs b = true := by
      rcases hb.found_or_added with ⟨hsame, -⟩ | ⟨-, hlength, -⟩
      · exact hsame
      · -- The place was taken before, so nothing was added there.
        have := ha.lt_length
        have := hle.length_le
        omega
    obtain ⟨hkey, hnumeric⟩ := (Const.sameAs_iff y b).1 hsame
    exact (Const.sameAs_iff a b).2 ⟨ha.slotKey_eq ▸ hkey,
      Const.unitsNumeric_congr ha.slotKey_eq ▸ hnumeric⟩
  · intro hsame
    obtain ⟨hkey, hnumeric⟩ := (Const.sameAs_iff a b).1 hsame
    have hyb : y.sameAs b = true := (Const.sameAs_iff y b).2
      ⟨ha.slotKey_eq.trans hkey, (Const.unitsNumeric_congr ha.slotKey_eq).trans hnumeric⟩
    have hza : z.sameAs a = true := (Const.sameAs_iff z a).2
      ⟨hb.slotKey_eq.trans hkey.symm,
        (Const.unitsNumeric_congr (hb.slotKey_eq.trans hkey.symm)).trans hnumeric⟩
    rcases Nat.lt_trichotomy i j with hlt | heq | hlt
    · rw [hb.first i hlt y hy] at hyb
      cases hyb
    · exact heq
    · have hz : pool'[j]? = some z :=
        getElem?_restrict (hle.trans hb.prefix_of) (hlt.trans ha.lt_length) hb.get_eq
      rw [ha.first j hlt z hz] at hza
      cases hza

end Assemble

/-! ### Streams -/

structure PoolTrace (whole : Stream) (index : Nat) (ops : Stream) (code : List Instruction)
    (pools : Nat → Pools) : Prop where
  step : ∀ n op, (reals ops)[n]? = some op → ∃ i, code[n]? = some i ∧ op.opcode = some i.opcode ∧
    argument whole (index + n) (pools n) op = .ok (i.arg, pools (n + 1))

section Trace

variable {whole ops : Stream} {index : Nat} {p last : Pools} {code : List Instruction}
  {pools : Nat → Pools}

theorem exists_pools_of_encode (h : encode whole index p ops = .ok (code, last)) :
    ∃ pools, PoolTrace whole index ops code pools ∧ pools (size ops) = last := by
  suffices hsuff : ∃ pools, PoolTrace whole index ops code pools ∧ pools 0 = p ∧
      pools (size ops) = last by
    obtain ⟨pools, htrace, -, hlast⟩ := hsuff
    exact ⟨pools, htrace, hlast⟩
  induction h using encode_induction with
  | nil => exact ⟨fun _ => last, ⟨fun n op hop => by cases hop⟩, rfl, rfl⟩
  | marker hop _ ih =>
    obtain ⟨pools, htrace, hzero, hlast⟩ := ih
    refine ⟨pools, ⟨?_⟩, hzero, ?_⟩
    · rw [reals_cons_of_marker hop]
      exact htrace.step
    · rw [size_cons_of_not_isReal (isReal_of_opcode_eq_none hop), hlast]
  | @real _ p _ _ _ _ _ _ _ hop harg _ ih =>
    have hreal := isReal_of_opcode hop
    obtain ⟨pools, htrace, hzero, hlast⟩ := ih
    refine ⟨fun n => n.casesOn p pools, ⟨fun n op' hop' => ?_⟩, rfl, ?_⟩
    · rw [reals_cons_of_isReal hreal] at hop'
      cases n with
      | zero =>
        cases hop'
        subst hzero
        exact ⟨_, rfl, hop, harg⟩
      | succ n =>
        obtain ⟨i, hi, hopcode, harg'⟩ := htrace.step n op' hop'
        rw [Nat.add_right_comm] at harg'
        exact ⟨i, hi, hopcode, harg'⟩
    · rw [size_cons_of_isReal hreal]
      exact hlast

theorem PoolTrace.upto (h : PoolTrace whole index ops code pools) (hnm : n ≤ m)
    (hm : m ≤ size ops) : (pools n).Upto (pools m) := by
  induction m, hnm using Nat.le_induction with
  | base => exact .refl _
  | succ m hnm ih =>
    obtain ⟨op, hop⟩ : ∃ op, (reals ops)[m]? = some op :=
      ⟨_, getElem?_eq_getElem (by rw [length_reals]; omega)⟩
    obtain ⟨i, -, -, harg⟩ := h.step m op hop
    exact (ih (by omega)).trans (step_of_argument harg).upto

end Trace

/-- The slot of the constant that instruction `n` loads. -/
def CodeOf.slot? (c : Code) (n : Nat) : Option UInt32 :=
  match c.code[n]? with
  | some ⟨.loadConst, arg⟩ => some arg
  | _ => none

/-- The constant that instruction `n` loads. -/
def CodeOf.loaded? (c : Code) (n : Nat) : Option Const :=
  (c.slot? n).bind fun slot => c.consts[slot.toNat]?

section Unit

variable {fileName : String} {ops : Stream} {header : Header} {code : Code}

theorem exists_slot_of_trace {pools : Nat → Pools} (h : PoolTrace ops 0 ops code.code pools)
    {a : Const} (ha : (reals ops)[n]? = some (.const a)) :
    ∃ i y, code.slot? n = some (UInt32.ofNat i) ∧
      Interned Const.sameAs (pools n).consts a i y (pools (n + 1)).consts := by
  obtain ⟨⟨opcode, arg⟩, hi, hopcode, harg⟩ := h.step n _ ha
  obtain rfl : Opcode.loadConst = opcode := Option.some.inj hopcode
  rw [argument, Pools.const_eq] at harg
  obtain ⟨i, y, hplace, hinterned⟩ := interned_intern Const.sameAs (pools n).consts a
  simp only [Except.ok.injEq, Prod.mk.injEq] at harg
  refine ⟨i, y, ?_, ?_⟩
  · rw [CodeOf.slot?, hi, ← hplace, harg.1]
  · rw [← harg.2]
    exact hinterned

theorem lt_size_of_getElem?_reals {op : Op} (h : (reals ops)[n]? = some op) : n < size ops := by
  rw [← length_reals]
  exact (List.getElem?_eq_some_iff.1 h).1

theorem exists_place_of_mem {a : Const} (h : Op.const a ∈ ops) :
    ∃ n : Nat, (reals ops)[n]? = some (.const a) :=
  mem_iff_getElem?.1 (mem_filter.2 ⟨h, rfl⟩)

theorem Assembled.slot?_eq_iff (h : Assembled fileName ops header code)
    (hlength : code.consts.length < 4294967296) {a b : Const}
    (ha : (reals ops)[n]? = some (.const a)) (hb : (reals ops)[m]? = some (.const b)) :
    code.slot? n = code.slot? m ↔ n = m ∨ a.sameAs b = true := by
  obtain ⟨pools, htrace, hlast⟩ := exists_pools_of_encode h.encode_eq
  -- Arguments are places: no pool of the trace outgrows that of the unit.
  have hinj {k i : Nat} {c y : Const} (hk : k < size ops)
      (hi : Interned Const.sameAs (pools k).consts c i y (pools (k + 1)).consts) :
      i < 4294967296 := by
    have hle := (htrace.upto (show k + 1 ≤ size ops by omega) le_rfl).consts.length_le
    rw [hlast] at hle
    exact hi.lt_length.trans (lt_of_le_of_lt hle hlength)
  have hordered {n m : Nat} {a b : Const} (hlt : n < m) (ha : (reals ops)[n]? = some (.const a))
      (hb : (reals ops)[m]? = some (.const b)) :
      code.slot? n = code.slot? m ↔ a.sameAs b = true := by
    have hn := lt_size_of_getElem?_reals ha
    have hm := lt_size_of_getElem?_reals hb
    obtain ⟨i, y, hslot, hi⟩ := exists_slot_of_trace htrace ha
    obtain ⟨j, z, hslot', hj⟩ := exists_slot_of_trace htrace hb
    have hle := (htrace.upto (show n + 1 ≤ m by omega) (by omega)).consts
    rw [hslot, hslot', Option.some.injEq, ← hi.place_eq_iff hle hj, ← UInt32.toNat_inj,
      UInt32.toNat_ofNat_of_lt' (hinj hn hi), UInt32.toNat_ofNat_of_lt' (hinj hm hj)]
  rcases Nat.lt_trichotomy n m with hlt | rfl | hlt
  · rw [hordered hlt ha hb]
    simp [hlt.ne]
  · simp
  · rw [eq_comm, hordered hlt hb ha]
    have hsymm : b.sameAs a = true ↔ a.sameAs b = true := by
      rw [Const.sameAs_iff, Const.sameAs_iff, eq_comm]
      exact and_congr_right fun hkey => by rw [Const.unitsNumeric_congr hkey]
    simp [hsymm, hlt.ne']

theorem Assembled.exists_loaded? (h : Assembled fileName ops header code)
    (hlength : code.consts.length < 4294967296) {a : Const} (ha : (reals ops)[n]? = some
    (.const a)) :
    ∃ b, code.loaded? n = some b ∧ (b = a ∨ b.sameAs a = true) ∧ .const b ∈ ops := by
  obtain ⟨pools, htrace, hlast⟩ := exists_pools_of_encode h.encode_eq
  have hn := lt_size_of_getElem?_reals ha
  obtain ⟨⟨opcode, arg⟩, hi, hopcode, harg⟩ := htrace.step n _ ha
  obtain rfl : Opcode.loadConst = opcode := Option.some.inj hopcode
  have hupto := htrace.upto (show n + 1 ≤ size ops by omega) le_rfl
  rw [hlast] at hupto
  obtain ⟨b, hb, hsame⟩ := const_of_argument harg hupto hlength
  refine ⟨b, ?_, hsame, ?_⟩
  · rw [CodeOf.loaded?, CodeOf.slot?, hi]
    exact hb
  · exact (mem_consts_of_encode h.encode_eq (mem_of_getElem? hb)).resolve_left (by simp)

/-- What the interning of constants changes: a load gives a constant that differs from its own in
the sign of zeros inside code units at most, two loads have one slot when their constants differ in
that alone and hold no NaN inside a unit, and every load gives its own constant unless two constants
of the stream differ in that alone. -/
theorem loaded_constants_keyed (hcode : assemble fileName ops header = .ok code)
    (hlength : code.consts.length < 4294967296) :
    (∀ n a, (reals ops)[n]? = some (.const a) →
      ∃ b, code.loaded? n = some b ∧ b.slotKey = a.slotKey) ∧
    (∀ n m a b, (reals ops)[n]? = some (.const a) → (reals ops)[m]? = some (.const b) →
      (code.slot? n = code.slot? m ↔
        n = m ∨ (a.slotKey = b.slotKey ∧ a.unitsNumeric = true))) ∧
    ((∀ n a, (reals ops)[n]? = some (.const a) → code.loaded? n = some a) ↔
      ∀ a b, .const a ∈ ops → .const b ∈ ops → a.slotKey = b.slotKey → a.unitsNumeric = true →
        a = b) := by
  have h := assemble_eq_ok_iff.1 hcode
  refine ⟨fun n a ha => ?_, fun n m a b ha hb => ?_, fun hexact a b ha hb hkey hnumeric => ?_,
    fun hapart n a ha => ?_⟩
  · obtain ⟨b, hb, hsame, -⟩ := h.exists_loaded? hlength ha
    refine ⟨b, hb, ?_⟩
    rcases hsame with rfl | hsame
    · rfl
    · exact ((Const.sameAs_iff b a).1 hsame).1
  · rw [h.slot?_eq_iff hlength ha hb, Const.sameAs_iff]
  · obtain ⟨n, hn⟩ := exists_place_of_mem ha
    obtain ⟨m, hm⟩ := exists_place_of_mem hb
    have hslot : code.slot? n = code.slot? m :=
      (h.slot?_eq_iff hlength hn hm).2 (.inr ((Const.sameAs_iff a b).2 ⟨hkey, hnumeric⟩))
    have hloaded : code.loaded? n = code.loaded? m := by
      rw [CodeOf.loaded?, CodeOf.loaded?, hslot]
    rw [hexact n a hn, hexact m b hm] at hloaded
    exact Option.some.inj hloaded
  · obtain ⟨b, hb, hsame, hmem⟩ := h.exists_loaded? hlength ha
    rcases hsame with rfl | hsame
    · exact hb
    · obtain ⟨hkey, hnumeric⟩ := (Const.sameAs_iff b a).1 hsame
      rw [hb, hapart b a hmem (List.mem_of_mem_filter (List.mem_of_getElem? ha)) hkey hnumeric]

end Unit

/-! ### Loads of two constants -/

def floatUnit (x : Binary64) : Code where
  stackSize := 1
  flags := ⟨0x41⟩
  code := [⟨.loadConst, 0⟩, ⟨.bare .returnValue, 0⟩]
  fileName := "floats"
  name := "float"
  firstLine := 0
  consts := [.float x]

def negativeZero : Binary64 := .ofMagnitude true 0

def loadBoth (a b : Const) : Stream :=
  [.const a, .bare .popTop, .const b, .bare .returnValue]

def loadBothUnit (consts : List Const) (second : UInt32) : Code :=
  { floatUnit ⟨0⟩ with
    name := "both"
    code := [⟨.loadConst, 0⟩, ⟨.bare .popTop, 0⟩, ⟨.loadConst, second⟩, ⟨.bare .returnValue, 0⟩]
    consts := consts }

theorem assemble_loadBoth (a b : Const) :
    assemble "floats" (loadBoth a b) { name := "both" } =
      .ok (if a.sameAs b then loadBothUnit [a] 0 else loadBothUnit [a, b] 1) := by
  rw [assemble_eq_ok_iff]
  split_ifs with hsame
  all_goals
    refine ⟨rfl, .nil, ?_, by cbv, rfl, rfl, by cbv, rfl, rfl, rfl, rfl, rfl⟩
    simp [loadBoth, loadBothUnit, floatUnit, encode, argument, Op.opcode, Pools.const, intern,
      CodeOf.pools, hsame, bind, Except.bind, pure, Except.pure, findIdx?_cons]

/-- Zeros that stand beside a unit and not inside it are loaded each as it is. -/
theorem zerosOutside_loaded :
    assemble "floats" (loadBoth (.tuple [.float ⟨0⟩, .code (floatUnit ⟨0⟩)])
        (.tuple [.float negativeZero, .code (floatUnit ⟨0⟩)])) { name := "both" } =
      .ok (loadBothUnit [.tuple [.float ⟨0⟩, .code (floatUnit ⟨0⟩)],
        .tuple [.float negativeZero, .code (floatUnit ⟨0⟩)]] 1) ∧
    ∀ n a, (reals (loadBoth (.tuple [.float ⟨0⟩, .code (floatUnit ⟨0⟩)])
        (.tuple [.float negativeZero, .code (floatUnit ⟨0⟩)])))[n]? = some (.const a) →
      (loadBothUnit [.tuple [.float ⟨0⟩, .code (floatUnit ⟨0⟩)],
        .tuple [.float negativeZero, .code (floatUnit ⟨0⟩)]] 1).loaded? n = some a := by
  have hcode := assemble_loadBoth (.tuple [.float ⟨0⟩, .code (floatUnit ⟨0⟩)])
    (.tuple [.float negativeZero, .code (floatUnit ⟨0⟩)])
  rw [if_neg (by decide +kernel)] at hcode
  refine ⟨hcode, (loaded_constants_keyed hcode (by decide)).2.2.2 ?_⟩
  intro a b ha hb hkey _
  simp only [loadBoth, List.mem_cons, Op.const.injEq, reduceCtorEq, List.not_mem_nil, or_false,
    false_or] at ha hb
  rcases ha with rfl | rfl <;> rcases hb with rfl | rfl
  · rfl
  · simp [Const.slotKey, slotKeys, negativeZero, Binary64.ofMagnitude] at hkey
  · simp [Const.slotKey, slotKeys, negativeZero, Binary64.ofMagnitude] at hkey
  · rfl

/-- Inside a unit the zeros are taken for one another, so that the second load gives the constant
of the first; and a unit with a NaN gets a second slot. -/
theorem zerosInside_confused :
    (assemble "floats" (loadBoth (.code (floatUnit ⟨0⟩)) (.code (floatUnit negativeZero)))
        { name := "both" } = .ok (loadBothUnit [.code (floatUnit ⟨0⟩)] 0) ∧
      (loadBothUnit [.code (floatUnit ⟨0⟩)] 0).loaded? 2 = some (.code (floatUnit ⟨0⟩)) ∧
      Const.code (floatUnit ⟨0⟩) ≠ .code (floatUnit negativeZero)) ∧
    assemble "floats" (loadBoth (.code (floatUnit .nan)) (.code (floatUnit .nan)))
        { name := "both" } =
      .ok (loadBothUnit [.code (floatUnit .nan), .code (floatUnit .nan)] 1) := by
  refine ⟨⟨?_, rfl, fun h => ?_⟩, ?_⟩
  · rw [assemble_loadBoth, if_pos (by decide +kernel)]
  · simp [floatUnit, negativeZero, Binary64.ofMagnitude] at h
  · rw [assemble_loadBoth, if_neg (by decide +kernel)]

end Bytewright
