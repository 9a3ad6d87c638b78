import Bytewright.Proofs.Link.Shift
import Bytewright.Proofs.Tracing.Stream
import Bytewright.Stream.Inversion

/-!
# Inverted streams

No label stands behind the load, so no jump leads past it.  Up to its place the inverted unit
differs from the plain one in the numbers of fast locals only.
-/

namespace Bytewright

open Assemble OfCode List

namespace Inversion

/-! ### The ends of streams -/

/-- The stream ends in the load, and returns what was loaded. -/
def Ends (ops front : Stream) (load : Op) : Prop :=
  isLine load = false ∧ ∃ lines lines', (∀ op ∈ lines ++ lines', isLine op = true) ∧
    ops = front ++ load :: (lines ++ .bare .returnValue :: lines')

theorem dropLines_eq_cons_iff {ops rest : Stream} {op : Op} :
    dropLines ops = op :: rest ↔ isLine op = false ∧
      ∃ lines, (∀ o ∈ lines, isLine o = true) ∧ ops = lines ++ op :: rest := by
  constructor
  · intro h
    have hhead := head?_dropWhile_not isLine ops
    have hsplit := takeWhile_append_dropWhile (p := isLine) (l := ops)
    change ops.dropWhile isLine = op :: rest at h
    rw [h] at hhead hsplit
    refine ⟨by simpa using hhead, ops.takeWhile isLine, fun o ho => ?_, hsplit.symm⟩
    exact mem_takeWhile_imp ho
  · rintro ⟨hop, lines, hlines, rfl⟩
    rw [dropLines, dropWhile_append_of_pos hlines, dropWhile_cons_of_neg (by simp [hop])]

theorem finalLoad?_eq_some_iff {ops earlier : Stream} {load : Op} :
    finalLoad? ops = some (load, earlier) ↔ Ends ops earlier.reverse load := by
  constructor
  · intro h
    unfold finalLoad? at h
    split at h
    · next behind hreturn =>
      split at h
      · next load' earlier' hload =>
        cases h
        obtain ⟨-, lines', hlines', hops⟩ := dropLines_eq_cons_iff.1 hreturn
        obtain ⟨hline, lines, hlines, rfl⟩ := dropLines_eq_cons_iff.1 hload
        refine ⟨hline, lines.reverse, lines'.reverse, ?_, ?_⟩
        · simpa [or_imp, forall_and] using ⟨hlines, hlines'⟩
        · rw [← reverse_reverse ops, hops]
          simp
      · cases h
    · cases h
  · rintro ⟨hline, lines, lines', hlines, rfl⟩
    simp only [mem_append, or_imp, forall_and] at hlines
    have hreturn :
        dropLines (earlier.reverse ++ load :: (lines ++ .bare .returnValue :: lines')).reverse =
          .bare .returnValue :: (lines.reverse ++ load :: earlier) :=
      dropLines_eq_cons_iff.2 ⟨rfl, lines'.reverse, by simpa using hlines.2, by simp⟩
    have hload : dropLines (lines.reverse ++ load :: earlier) = load :: earlier :=
      dropLines_eq_cons_iff.2 ⟨hline, lines.reverse, by simpa using hlines.1, rfl⟩
    simp only [finalLoad?, hreturn, hload]

end Inversion

open Inversion in
theorem injectInversion_eq_ok_iff {ops inverted : Stream} :
    injectInversion ops = .ok inverted ↔ ∃ front load store, Ends ops front load ∧
      replace? (front.all isLine) load = some store ∧
      inverted = front ++ (store ++ [.bare .returnValue]) := by
  constructor
  · intro h
    unfold injectInversion at h
    split at h
    · cases h
    · next load earlier hload =>
      split at h
      · next store hstore =>
        cases h
        refine ⟨earlier.reverse, load, store, finalLoad?_eq_some_iff.1 hload, ?_, by simp⟩
        rw [all_reverse]
        exact hstore
      · cases h
  · rintro ⟨front, load, store, hends, hstore, rfl⟩
    have hload : finalLoad? ops = some (load, front.reverse) :=
      finalLoad?_eq_some_iff.2 (by rwa [reverse_reverse])
    simp only [injectInversion, hload, all_reverse, hstore, reverse_reverse, append_assoc]

namespace Inversion

/-! ### Loads and what takes their place -/

variable {alone : Bool} {load op : Op} {store : Stream} {code : List Instruction}

/-- It uses one of the two reserved slots. -/
def touches : Op → Bool
  | .name o x => o.pool == .locals && (x == inverterSlot || x == valueSlot)
  | _ => false

def isStoreOp : Op → Bool
  | .line _ | .mark _ => false
  | .jump _ _ => false
  | .const k => k.isLabel
  | .name o x => o.pool == .names || o.pool == .locals && (x == inverterSlot || x == valueSlot)
  | _ => true

section

variable (h : replace? alone load = some store)
include h

theorem load_cases {motive : Op → Prop}
    (hname : ∀ x, motive (.name .loadName x)) (hattr : ∀ x, motive (.name .loadAttr x))
    (hcall : ∀ args kwds, motive (.call .callFunction args kwds))
    (hsubscr : motive (.bare .binarySubscr)) : motive load := by
  unfold replace? at h
  split at h
  · exact hname _
  · exact hattr _
  · exact hcall _ _
  · exact hsubscr
  · cases h

theorem isStoreOp_of_mem (hop : op ∈ store) : isStoreOp op = true := by
  have hall : store.all isStoreOp = true := by
    unfold replace? at h
    split at h
    · split at h
      · cases h
        rfl
      · cases h
    · cases h
      rfl
    · cases h
      rfl
    · cases h
      rfl
    · cases h
  exact all_eq_true.1 hall op hop

theorem isStoreOp_of_mem_append :
    ∀ op ∈ store ++ [.bare .returnValue], isStoreOp op = true := by
  intro op hop
  rcases mem_append.1 hop with hop | hop
  · exact isStoreOp_of_mem h hop
  · rw [mem_singleton.1 hop]
    rfl

end

theorem isReal_of_isStoreOp (h : isStoreOp op = true) : op.isReal = true := by
  cases op with
  | line | mark => cases h
  | _ => rfl

section

variable (h : replace? alone load = some store)
include h

theorem isReal_of_replace? : load.isReal = true :=
  load_cases (motive := fun load => load.isReal = true) h (fun _ => rfl) (fun _ => rfl)
    (fun _ _ => rfl) rfl

theorem store_ne_nil : store ≠ [] := by
  rintro rfl
  unfold replace? at h
  split at h
  · split at h <;> cases h
  · cases h
  · cases h
  · cases h
  · cases h

theorem size_store : size store = store.length := by
  rw [size, countP_eq_length]
  exact fun op hop => isReal_of_isStoreOp (isStoreOp_of_mem h hop)

end

theorem isReal_eq_false_of_isLine (h : isLine op = true) : op.isReal = false := by
  cases op with
  | line => rfl
  | _ => cases h

/-! ### Pools -/

/-- The header with the two reserved arguments. -/
def reserve (header : Header) : Header :=
  { header with args := inverterSlot :: valueSlot :: header.args }

def widen (p : Pools) : Pools := { p with varNames := inverterSlot :: valueSlot :: p.varNames }

section Encode

variable {whole whole' : Stream} {index : Nat} {p p' q q' : Pools} {arg arg' : UInt32}

theorem argument_widen (hop : touches op = false)
    (hjump : ∀ o l, op = .jump o l → position? l 0 whole' = position? l 0 whole)
    (h : argument whole index p op = .ok (arg, p')) :
    ∃ arg', argument whole' index (widen p) op = .ok (arg', widen p') ∧
      (arg' = arg ∨ ∃ o x, op = .name o x ∧ o.pool = .locals) := by
  cases op with
  | name o x =>
    rw [argument, Pools.name_eq] at h
    cases h
    cases hpool : o.pool with
    | locals =>
      refine ⟨(intern (· == ·) (widen p).varNames x).1, ?_, .inr ⟨o, x, rfl, hpool⟩⟩
      have hx : inverterSlot ≠ x ∧ valueSlot ≠ x := by
        constructor
        · rintro rfl
          simp [touches, hpool] at hop
        · rintro rfl
          simp [touches, hpool] at hop
      have hnames : (intern (· == ·) (widen p).varNames x).2 =
          inverterSlot :: valueSlot :: (intern (· == ·) p.varNames x).2 := by
        rw [Tracing.intern_snd, Tracing.intern_snd, widen, find?_cons_of_neg (by simpa using hx.1),
          find?_cons_of_neg (by simpa using hx.2)]
        split_ifs <;> rfl
      rw [argument, Pools.name_eq, hpool]
      show Except.ok (_, { widen p with varNames := (intern (· == ·) (widen p).varNames x).2 }) = _
      rw [hnames]
      rfl
    | names | free =>
      refine ⟨_, ?_, .inl rfl⟩
      rw [argument, Pools.name_eq, hpool]
      rfl
  | jump o l =>
    refine ⟨arg, ?_, .inl rfl⟩
    rw [argument, jumpArg] at h ⊢
    rw [hjump o l rfl]
    cases hplace : position? l 0 whole with
    | none =>
      rw [hplace] at h
      cases h
    | some target =>
      rw [hplace] at h
      dsimp only at h ⊢
      split_ifs at h ⊢
      · cases h
      · cases h
        rfl
      · cases h
        rfl
  | _ =>
    cases h
    exact ⟨_, rfl, .inl rfl⟩

/-- The instruction is the same, but for the number of a fast local. -/
def Renumbers (i i' : Instruction) : Prop :=
  i' = i ∨ ∃ o, i.opcode = .name o ∧ i'.opcode = .name o ∧ o.pool = .locals

theorem encode_widen {ops : Stream} (hops : ∀ op ∈ ops, touches op = false)
    (hjumps : ∀ l ∈ references ops, position? l 0 whole' = position? l 0 whole)
    (h : encode whole index p ops = .ok (code, p')) :
    ∃ code', encode whole' index (widen p) ops = .ok (code', widen p') ∧
      List.Forall₂ Renumbers code code' := by
  have hrest {op : Op} {ops : Stream} (hjumps : ∀ l ∈ references (op :: ops),
      position? l 0 whole' = position? l 0 whole) (l : Label) (hl : l ∈ references ops) :=
    hjumps l (by rw [references_cons]; exact mem_append_right _ hl)
  induction h using encode_induction with
  | nil => exact ⟨[], rfl, .nil⟩
  | marker hopcode _ ih =>
    rw [encode_cons_of_marker hopcode]
    exact ih (forall_mem_cons.1 hops).2 (hrest hjumps)
  | real hopcode harg _ ih =>
    obtain ⟨htouches, hops⟩ := forall_mem_cons.1 hops
    obtain ⟨arg', harg', hsame⟩ := argument_widen htouches
      (fun o l heq => hjumps l (mem_references_iff.2 ⟨o, heq ▸ mem_cons_self⟩)) harg
    obtain ⟨tail', htail', hall⟩ := ih hops (hrest hjumps)
    refine ⟨_, (encode_cons_eq_ok_iff hopcode).2 ⟨arg', _, tail', harg', htail', rfl⟩,
      .cons ?_ hall⟩
    rcases hsame with rfl | ⟨o, x, rfl, hpool⟩
    · exact .inl rfl
    · cases hopcode
      exact .inr ⟨o, rfl, rfl, hpool⟩

theorem widened_of_argument (hop : isStoreOp op = true)
    (h : argument whole index p op = .ok (arg, p'))
    (hp : ∃ rest, p.varNames = inverterSlot :: valueSlot :: rest) :
    p'.varNames = p.varNames ∧ p'.freeVars = p.freeVars := by
  obtain ⟨rest, hrest⟩ := hp
  cases op with
  | line | mark | jump => cases hop
  | name o x =>
    rw [argument, Pools.name_eq] at h
    cases h
    cases hpool : o.pool with
    | names => exact ⟨rfl, rfl⟩
    | locals =>
      have hx : x = inverterSlot ∨ x = valueSlot := by simpa [isStoreOp, hpool] using hop
      refine ⟨?_, rfl⟩
      show (intern (· == ·) p.varNames x).2 = _
      rw [Tracing.intern_snd, if_pos]
      rcases hx with rfl | rfl <;> simp [hrest]
    | free => simp [isStoreOp, hpool] at hop
  | const k =>
    rw [argument, Pools.const_eq] at h
    cases h
    exact ⟨rfl, rfl⟩
  | _ =>
    cases h
    exact ⟨rfl, rfl⟩

theorem widened_of_encode {ops : Stream} (hops : ∀ op ∈ ops, isStoreOp op = true)
    (h : encode whole index p ops = .ok (code, p'))
    (hp : ∃ rest, p.varNames = inverterSlot :: valueSlot :: rest) :
    p'.varNames = p.varNames ∧ p'.freeVars = p.freeVars := by
  refine keeps_of_encode (P := fun q => q.varNames = p.varNames ∧ q.freeVars = p.freeVars)
    (fun op hop _ q _ q' harg hq => ?_) h ⟨rfl, rfl⟩
  obtain ⟨hnames, hfree⟩ := widened_of_argument (hops op hop) harg (hq.1 ▸ hp)
  exact ⟨hnames.trans hq.1, hfree.trans hq.2⟩

theorem encode_load {lines lines' : Stream} (hload : replace? alone load = some store)
    (hlines : ∀ op ∈ lines ++ lines', isLine op = true)
    (h : encode whole index p (load :: (lines ++ .bare .returnValue :: lines')) = .ok (code, p')) :
    (∃ i, load.opcode = some i.opcode ∧ argument whole index p load = .ok (i.arg, p') ∧
      code = [i, ⟨.bare .returnValue, 0⟩]) ∧
      p'.consts = p.consts ∧ p'.varNames = p.varNames ∧ p'.freeVars = p.freeVars := by
  have hmarkers : ∀ op ∈ lines ++ lines', op.opcode = none := by
    intro op hop
    cases op with
    | line => rfl
    | _ => cases hlines _ hop
  have hbehind := fun op hop => hmarkers op (mem_append_right lines hop)
  have hbetween := fun op hop => hmarkers op (mem_append_left lines' hop)
  have hback (p : Pools) : encode whole (index + 1) p (lines ++ .bare .returnValue :: lines') =
      .ok ([⟨.bare .returnValue, 0⟩], p) := by
    rw [encode_markers_append hbetween]
    refine (encode_cons_eq_ok_iff rfl).2 ⟨0, p, [], rfl, ?_, rfl⟩
    have hempty := encode_append_markers hbehind whole (index + 1 + 1) p []
    rwa [nil_append] at hempty
  obtain ⟨opcode, hopcode⟩ := exists_opcode_of_isReal (isReal_of_replace? hload)
  obtain ⟨arg, mid, tail, harg, htail, rfl⟩ := (encode_cons_eq_ok_iff hopcode).1 h
  rw [hback] at htail
  cases htail
  refine ⟨⟨⟨opcode, arg⟩, hopcode, harg, rfl⟩, ?_⟩
  refine load_cases (motive := fun load => argument whole index p load = .ok (arg, p') →
    p'.consts = p.consts ∧ p'.varNames = p.varNames ∧ p'.freeVars = p.freeVars)
    hload ?_ ?_ ?_ ?_ harg
  · rintro x ⟨⟩
    exact ⟨rfl, rfl, rfl⟩
  · rintro x ⟨⟩
    exact ⟨rfl, rfl, rfl⟩
  · rintro args kwds ⟨⟩
    exact ⟨rfl, rfl, rfl⟩
  · rintro ⟨⟩
    exact ⟨rfl, rfl, rfl⟩

end Encode

/-! ### Labels -/

section Labels

variable {ops front : Stream}

theorem Ends.labels_eq (h : Ends ops front load) (hload : replace? alone load = some store) :
    marks ops = marks front ∧ references ops = references front := by
  obtain ⟨-, lines, lines', hlines, rfl⟩ := h
  have hmark (l : Label) : .mark l ∉ lines ++ lines' := fun hl => by cases hlines _ hl
  have hjump (o : JumpOp) (l : Label) : .jump o l ∉ lines ++ lines' := fun hl => by
    cases hlines _ hl
  simp only [mem_append, not_or] at hmark hjump
  have hloads := load_cases (motive := fun load => (∀ l, load ≠ .mark l) ∧ ∀ o l, load ≠ .jump o l)
    hload (by simp) (by simp) (by simp) (by simp)
  have hmarks : marks (load :: (lines ++ .bare .returnValue :: lines')) = [] := by
    refine eq_nil_iff_forall_not_mem.2 fun l hl => ?_
    rw [mem_marks_iff] at hl
    simp only [mem_cons, mem_append, reduceCtorEq, false_or] at hl
    rcases hl with hl | hl | hl
    · exact hloads.1 l hl.symm
    · exact (hmark l).1 hl
    · exact (hmark l).2 hl
  have hreferences : references (load :: (lines ++ .bare .returnValue :: lines')) = [] := by
    refine eq_nil_iff_forall_not_mem.2 fun l hl => ?_
    obtain ⟨o, ho⟩ := mem_references_iff.1 hl
    simp only [mem_cons, mem_append, reduceCtorEq, false_or] at ho
    rcases ho with ho | ho | ho
    · exact hloads.2 o l ho.symm
    · exact (hjump o l).1 ho
    · exact (hjump o l).2 ho
  rw [marks_append, references_append, hmarks, hreferences, append_nil, append_nil]
  exact ⟨rfl, rfl⟩

theorem labels_inverted (hload : replace? alone load = some store) (front : Stream) :
    marks (front ++ (store ++ [.bare .returnValue])) = marks front ∧
      references (front ++ (store ++ [.bare .returnValue])) = references front := by
  have hops := isStoreOp_of_mem_append hload
  have hmarks : marks (store ++ [.bare .returnValue]) = [] := by
    refine eq_nil_iff_forall_not_mem.2 fun l hl => ?_
    cases hops _ (mem_marks_iff.1 hl)
  have hreferences : references (store ++ [.bare .returnValue]) = [] := by
    refine eq_nil_iff_forall_not_mem.2 fun l hl => ?_
    obtain ⟨o, ho⟩ := mem_references_iff.1 hl
    cases hops _ ho
  rw [marks_append, references_append, hmarks, hreferences, append_nil, append_nil]
  exact ⟨rfl, rfl⟩

theorem position?_of_marks {back : Stream} (h : marks (front ++ back) = marks front) (l : Label) :
    position? l 0 (front ++ back) = position? l 0 front := by
  have hback : marks back = [] := by
    rw [marks_append] at h
    exact append_cancel_left (h.trans (append_nil _).symm)
  have hnone : position? l (0 + size front) back = none :=
    position?_eq_none_of_notMem (by simp [hback]) _
  rw [position?_append, hnone, Option.or_none]

theorem Ends.position?_eq (h : Ends ops front load) (hload : replace? alone load = some store)
    (l : Label) : position? l 0 ops = position? l 0 front := by
  have hmarks := (h.labels_eq hload).1
  obtain ⟨-, lines, lines', -, rfl⟩ := h
  exact position?_of_marks hmarks l

theorem Ends.size_eq (h : Ends ops front load) (hload : replace? alone load = some store) :
    size ops = size front + 2 := by
  obtain ⟨-, lines, lines', hlines, rfl⟩ := h
  have hnone : size (lines ++ lines') = 0 := by
    rw [size, countP_eq_zero]
    intro op hop
    rw [isReal_eq_false_of_isLine (hlines op hop)]
    simp
  rw [size_append] at hnone
  rw [size_append, size_cons_of_isReal (isReal_of_replace? hload), size_append,
    size_cons_of_isReal rfl]
  omega

end Labels

/-! ### A unit and its inverted unit -/

/-- A unit and the unit of its inverted stream. -/
structure Pair (fileName : String) (ops front : Stream) (load : Op) (store : Stream)
    (header : Header) (c t : Code) : Prop where
  ends : Ends ops front load
  store_eq : ∃ alone, replace? alone load = some store
  untouched : ∀ op ∈ front, touches op = false
  plain : Assembled fileName ops header c
  inverted : Assembled fileName (front ++ (store ++ [.bare .returnValue])) (reserve header) t
  addressable : t.Addressable

structure Middle (ops front store : Stream) (header : Header) (mid : Pools)
    (code code' : List Instruction) : Prop where
  plain : encode ops 0 header.pools front =
    .ok (code, mid)
  inverted : encode (front ++ (store ++ [.bare .returnValue])) 0
    { varNames := inverterSlot :: valueSlot :: header.args, freeVars := header.freeVars } front =
      .ok (code', widen mid)
  renumbers : List.Forall₂ Renumbers code code'

theorem exists_middle {ops front : Stream} {header : Header} {last : Pools}
    (hends : Ends ops front load) (hload : replace? alone load = some store)
    (hfront : ∀ op ∈ front, touches op = false)
    (h : encode ops 0 header.pools ops =
      .ok (code, last)) :
    ∃ mid first first', Middle ops front store header mid first first' ∧
      (∃ i, load.opcode = some i.opcode ∧ argument ops (size front) mid load = .ok (i.arg, last) ∧
        code = first ++ [i, ⟨.bare .returnValue, 0⟩]) ∧
      last.consts = mid.consts ∧ last.varNames = mid.varNames ∧ last.freeVars = mid.freeVars := by
  have hinverted := (labels_inverted hload front).1
  have hposition := hends.position?_eq hload
  obtain ⟨-, lines, lines', hlines, hops⟩ := hends
  have hsplit : encode ops 0 header.pools
      (front ++ load :: (lines ++ .bare .returnValue :: lines')) = .ok (code, last) := hops ▸ h
  obtain ⟨mid, first, rest, hfirst, hrest, rfl⟩ := encode_append_eq_ok_iff.1 hsplit
  rw [Nat.zero_add] at hrest
  obtain ⟨⟨i, hopcode, harg, rfl⟩, hpools⟩ := encode_load hload hlines hrest
  obtain ⟨first', hfirst', hrenumbers⟩ := encode_widen hfront
    (fun l _ => (position?_of_marks hinverted l).trans (hposition l).symm) hfirst
  exact ⟨mid, first, first', ⟨hfirst, hfirst', hrenumbers⟩, ⟨i, hopcode, harg, rfl⟩, hpools⟩

namespace Pair

variable {fileName : String} {ops front : Stream} {header : Header} {c t : Code} {n : Nat}

section

variable (h : Pair fileName ops front load store header c t)
include h

theorem exists_middle :
    ∃ mid first first', Middle ops front store header mid first first' ∧
      ((∃ i, load.opcode = some i.opcode ∧
          argument ops (size front) mid load = .ok (i.arg, c.pools) ∧
          c.code = first ++ [i, ⟨.bare .returnValue, 0⟩]) ∧
        c.consts = mid.consts ∧ c.varNames = mid.varNames ∧ c.freeVars = mid.freeVars) ∧
      ((∃ tail, encode (front ++ (store ++ [.bare .returnValue])) (size front) (widen mid)
          (store ++ [.bare .returnValue]) = .ok (tail, t.pools) ∧ t.code = first' ++ tail) ∧
        t.varNames = inverterSlot :: valueSlot :: mid.varNames ∧ t.freeVars = mid.freeVars) := by
  obtain ⟨alone, hload⟩ := h.store_eq
  obtain ⟨mid, first, first', hmiddle, hplain⟩ :=
    Inversion.exists_middle h.ends hload h.untouched h.plain.encode_eq
  refine ⟨mid, first, first', hmiddle, hplain, ?_⟩
  obtain ⟨mid', first'', tail, hfirst, htail, hcode⟩ :=
    encode_append_eq_ok_iff.1 h.inverted.encode_eq
  obtain ⟨rfl, rfl⟩ : first' = first'' ∧ widen mid = mid' :=
    Prod.mk.injEq .. ▸ Except.ok.inj (hmiddle.inverted.symm.trans hfirst)
  rw [Nat.zero_add] at htail
  have hops := isStoreOp_of_mem_append hload
  exact ⟨⟨tail, htail, hcode⟩, widened_of_encode hops htail ⟨_, rfl⟩⟩

theorem varNames_eq : t.varNames = inverterSlot :: valueSlot :: c.varNames := by
  obtain ⟨mid, first, first', -, ⟨-, -, hplain, -⟩, -, hinverted, -⟩ := h.exists_middle
  rw [hinverted, hplain]

theorem length_plain : c.code.length = size front + 2 := by
  obtain ⟨alone, hload⟩ := h.store_eq
  rw [length_of_encode h.plain.encode_eq, h.ends.size_eq hload]

theorem size_store : size store = store.length := by
  obtain ⟨alone, hload⟩ := h.store_eq
  exact Inversion.size_store hload

theorem length_inverted : t.code.length = size front + store.length + 1 := by
  rw [length_of_encode h.inverted.encode_eq, size_append, size_append, h.size_store,
    size_cons_of_isReal rfl, size_nil]
  omega

theorem length_store_pos : 0 < store.length := by
  obtain ⟨alone, hload⟩ := h.store_eq
  exact length_pos_iff.2 (store_ne_nil hload)

theorem addressable_plain : c.Addressable := by
  obtain ⟨mid, first, first', -, ⟨-, hconsts, -, hfree⟩, ⟨tail, htail, -⟩, -, hfree'⟩ :=
    h.exists_middle
  have hupto := upto_of_encode htail
  have hcode := h.addressable.code
  have hpos := h.length_store_pos
  rw [h.length_inverted] at hcode
  refine ⟨by rw [h.length_plain]; omega, ?_, fun pool => ?_⟩
  · have hle : mid.consts.length ≤ t.consts.length := hupto.consts.length_le
    rw [hconsts]
    exact hle.trans_lt h.addressable.consts
  · cases pool with
    | locals =>
      have hlt : t.varNames.length < 4294967296 := h.addressable.names .locals
      show c.varNames.length < 4294967296
      rw [h.varNames_eq] at hlt
      simp only [length_cons] at hlt
      omega
    | names =>
      have hle : c.names.length ≤ 0 + size ops := (length_le_of_encode h.plain.encode_eq).2 .names
      have hsize := length_of_encode h.plain.encode_eq
      rw [h.length_plain] at hsize
      show c.names.length < 4294967296
      omega
    | free =>
      show c.freeVars.length < 4294967296
      rw [hfree, ← hfree']
      exact h.addressable.names .free

theorem carries_store :
    Carries t (placeIn (front ++ (store ++ [.bare .returnValue]))) (size front)
      (store ++ [.bare .returnValue]) := by
  obtain ⟨alone, hload⟩ := h.store_eq
  exact h.inverted.carries_between h.addressable front _ [] (by rw [append_nil])
    fun k hk k' _ => Const.eq_of_sameAs_isLabel (isStoreOp_of_mem_append hload _ hk)

theorem lineFor_store {k : Nat}
    (hk : k < store.length) : t.lineFor (size front + k) = c.lineFor (size front) := by
  obtain ⟨alone, hload⟩ := h.store_eq
  obtain ⟨-, lines, lines', -, hops⟩ := h.ends
  have hplain : Assembled fileName
      (front ++ ([load] ++ (lines ++ .bare .returnValue :: lines'))) header c := hops ▸ h.plain
  have hline := hplain.lineFor_part h.addressable_plain
    (by simpa using isReal_of_replace? hload) (Nat.zero_lt_one)
  rw [Nat.add_zero] at hline
  rw [hline]
  exact h.inverted.lineFor_part h.addressable
    (fun op hop => isReal_of_isStoreOp (isStoreOp_of_mem hload hop)) hk

theorem lineFor_eq (hn : n ≤ size front) : t.lineFor n = c.lineFor n := by
  rcases Nat.lt_or_eq_of_le hn with hlt | rfl
  · rw [← length_reals] at hlt
    obtain ⟨a, b, hfront, hsize, -, hreal⟩ :=
      Tracing.exists_front (getElem?_eq_getElem hlt)
    generalize (reals front)[n] = op at hfront hreal
    obtain ⟨-, lines, lines', -, hops⟩ := h.ends
    have hplain : Assembled fileName
        (a ++ ([op] ++ (b ++ load :: (lines ++ .bare .returnValue :: lines')))) header c := by
      have hsplit := h.plain
      rw [hops, hfront] at hsplit
      simpa using hsplit
    have hinverted : Assembled fileName (a ++ ([op] ++ (b ++ (store ++ [.bare .returnValue]))))
        (reserve header) t := by
      have hsplit := h.inverted
      rw [hfront] at hsplit
      simpa using hsplit
    have hline := hplain.lineFor_part h.addressable_plain (by simpa using hreal) Nat.zero_lt_one
    have hline' := hinverted.lineFor_part h.addressable (by simpa using hreal) Nat.zero_lt_one
    rw [← hsize, ← Nat.add_zero (size a), hline, hline']
    rfl
  · exact h.lineFor_store h.length_store_pos

end

def shift (h : Pair fileName ops front load store header c t) (inverter : Hook) (value : Value) :
    Shift True where
  plain := c
  shifted := t
  place := id
  limit := size front
  slots := [inverterSlot, valueSlot]
  extra := [.hook inverter, value]
  limit_le := by
    rw [h.length_plain]
    omega
  place_le i hi := by
    rw [h.length_inverted, id]
    omega
  place_eq _ _ _ := rfl
  varNames_eq := h.varNames_eq
  nodup_varNames := h.inverted.nodup_varNames
  length_extra := rfl
  name_eq := h.plain.name_eq.trans h.inverted.name_eq.symm
  fileName_eq := h.plain.fileName_eq.trans h.inverted.fileName_eq.symm
  lineFor_eq i hi := (h.lineFor_eq ((Nat.sub_le i 1).trans hi)).symm

theorem exists_twin (h : Pair fileName ops front load store header c t) (inverter : Hook)
    (value : Value) (hn : n < size front) {i : Instruction} (hi : c.code[n]? = some i) :
    ∃ i', t.code[n]? = some i' ∧ (h.shift inverter value).Twin n n i i' := by
  obtain ⟨alone, hload⟩ := h.store_eq
  obtain ⟨mid, first, first', hmiddle, ⟨⟨last, hlast, hlastArg, hcode⟩, -⟩,
    ⟨tail, htail, hcode'⟩, -⟩ := h.exists_middle
  have hlength : n < first.length := by rwa [length_of_encode hmiddle.plain]
  have hlength' : n < first'.length := hmiddle.renumbers.length_eq ▸ hlength
  rw [hcode, getElem?_append_left hlength] at hi
  have hi' : first'[n]? = some (first'.get ⟨n, hlength'⟩) := getElem?_eq_getElem hlength'
  have hrenumbers : Renumbers i (first'.get ⟨n, hlength'⟩) := by
    obtain ⟨_, rfl⟩ := List.getElem?_eq_some_iff.1 hi
    exact hmiddle.renumbers.get hlength hlength'
  refine ⟨_, by rw [hcode', List.getElem?_append_left hlength', hi'], ?_⟩
  generalize first'.get ⟨n, hlength'⟩ = i' at hi' hrenumbers
  -- both instructions were made from one operation
  obtain ⟨op, q, q', hop, hopcode, harg, hq⟩ := getElem?_of_encode hmiddle.plain hi
  obtain ⟨op', r, r', hop', hopcode', harg', hr⟩ := getElem?_of_encode hmiddle.inverted hi'
  obtain rfl : op = op' := Option.some.inj (hop.symm.trans hop')
  rw [Nat.zero_add] at harg harg'
  have hc := h.addressable_plain
  have hq' : q'.Upto c.pools := hq.trans (step_of_argument hlastArg).upto
  have hr' : r'.Upto t.pools := hr.trans (upto_of_encode htail)
  obtain ⟨opcode, arg⟩ := i
  obtain ⟨opcode', arg'⟩ := i'
  obtain rfl : opcode = opcode' := Option.some.inj (hopcode.symm.trans hopcode')
  refine ⟨rfl, ?_⟩
  -- only fast locals have other numbers
  have hsame (hname : ∀ o, opcode = .name o → o.pool ≠ .locals) : arg' = arg := by
    rcases hrenumbers with heq | ⟨o, ho, -, hpool⟩
    · exact congrArg Instruction.arg heq
    · exact absurd hpool (hname o ho)
  cases op with
  | line | mark => cases hopcode
  | const k =>
    cases hopcode
    cases hsame (by simp)
    obtain ⟨k', hk', -⟩ := const_of_argument harg hq
      ((step_of_argument hlastArg).upto.consts.length_le.trans_lt hc.consts)
    exact ⟨k', getElem?_mono (step_of_argument hlastArg).upto.consts hk',
      getElem?_mono (upto_of_encode htail).consts hk'⟩
  | name o x =>
    cases hopcode
    have hname := name_of_argument harg hq' (by rw [CodeOf.get_pools]; exact hc.names o.pool)
    have hname' := name_of_argument harg' hr'
      (by rw [CodeOf.get_pools]; exact h.addressable.names o.pool)
    rw [CodeOf.get_pools] at hname hname'
    refine ⟨x, hname, hname', fun hfree => hsame ?_⟩
    rintro _ ⟨⟩
    simp [hfree]
  | jump o l =>
    cases hopcode
    obtain ⟨target, htarget, hleads⟩ := exists_position?_of_argument (h.plain.size_lt hc) harg
    obtain ⟨target', htarget', hleads'⟩ :=
      exists_position?_of_argument (h.inverted.size_lt h.addressable) harg'
    rw [h.ends.position?_eq hload] at htarget
    rw [position?_of_marks (labels_inverted hload front).1, htarget] at htarget'
    cases htarget'
    have hbounds := (position?_bounds htarget).2
    rw [Nat.zero_add] at hbounds
    exact ⟨target, hbounds, hleads, hleads'⟩
  | bare | count | arith | compare | call =>
    cases hopcode
    exact hsame (by simp)

end Pair

end Inversion

end Bytewright
