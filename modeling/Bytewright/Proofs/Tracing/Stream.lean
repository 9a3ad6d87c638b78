import Bytewright.Proofs.Evaluate.Carry

/-!
# Traced streams

Each instruction of the first unit has its twin in the second, behind its report: fast locals are
one place further, and labels are where the reports have moved them.
-/

namespace Bytewright

open Assemble OfCode List

/-! ### Constants of reports -/

def Const.isLabel : Const → Bool
  | .str _ | .int _ => true
  | _ => false

theorem Const.eq_of_sameAs_isLabel {a b : Const} (hb : b.isLabel = true)
    (h : a.sameAs b = true) : a = b := by
  cases b with
  | str | int => cases a <;> first | cases h | exact congrArg _ (eq_of_beq h)
  | _ => cases hb

theorem Const.sameAs_eq_false_of_isLabel {a b : Const} (ha : a.isLabel = true)
    (hb : b.isLabel = false) : a.sameAs b = false := by
  cases a with
  | str | int => cases b <;> first | rfl | cases hb
  | _ => cases ha

theorem toNat_flatCount (args kwds : UInt8) :
    (flatCount args kwds).toNat = args.toNat + 2 * kwds.toNat := by
  have hargs := args.toNat_lt
  have hkwds := kwds.toNat_lt
  rw [flatCount, UInt32.toNat_add, UInt32.toNat_mul, UInt8.toNat_toUInt32, UInt8.toNat_toUInt32]
  simp only [UInt32.toNat_ofNat]
  omega

namespace Tracing

/-! ### The traced stream -/

/-- The report before an operation. -/
def report (op : Op) : Stream := before (receiver false) op

/-- The stream with all reports. -/
def traced (ops : Stream) : Stream := ops.flatMap fun op => report op ++ [op]

def touches : Op → Bool
  | .name o x => o.pool == .locals && x == slot
  | _ => false

def isReportOp : Op → Bool
  | .line _ | .mark _ => false
  | .jump _ _ => false
  | .const k => k.isLabel
  | .name o x => o.pool == .names || o.pool == .locals && x == slot
  | _ => true

@[simp] theorem traced_nil : traced [] = [] := rfl

theorem traced_cons (op : Op) (ops : Stream) :
    traced (op :: ops) = report op ++ op :: traced ops := by
  rw [traced, flatMap_cons, append_assoc]
  rfl

@[simp] theorem traced_append (a b : Stream) : traced (a ++ b) = traced a ++ traced b :=
  flatMap_append

theorem isReportOp_of_mem {op o : Op} (h : o ∈ report op) : isReportOp o = true := by
  have hall : (report op).all isReportOp = true := by
    unfold report before
    split <;> rfl
  exact all_eq_true.1 hall o h

theorem isReal_of_isReportOp {o : Op} (h : isReportOp o = true) : o.isReal = true := by
  cases o with
  | line | mark => cases h
  | _ => rfl

theorem isReal_of_mem_report {op o : Op} (h : o ∈ report op) : o.isReal = true :=
  isReal_of_isReportOp (isReportOp_of_mem h)

theorem report_of_not_isReal {op : Op} (h : op.isReal = false) : report op = [] := by
  cases op with
  | line | mark => rfl
  | _ => cases h

theorem size_report (op : Op) : size (report op) = (report op).length := by
  rw [size, countP_eq_length]
  exact fun o ho => isReal_of_mem_report ho

theorem size_traced_cons_of_isReal {op : Op} (h : op.isReal = true) (ops : Stream) :
    size (traced (op :: ops)) = (report op).length + 1 + size (traced ops) := by
  rw [traced_cons, size_append, size_report, size_cons_of_isReal h]
  omega

theorem size_traced_cons_of_not_isReal {op : Op} (h : op.isReal = false) (ops : Stream) :
    size (traced (op :: ops)) = size (traced ops) := by
  rw [traced_cons, report_of_not_isReal h, nil_append, size_cons_of_not_isReal h]

theorem stream_eq (inner : Code → Except AssembleError Code) {ops : Stream}
    (hcodes : ∀ unit, .const (.code unit) ∈ ops → unit.flags.contains .newLocals = true) :
    stream inner false ops = .ok (traced ops) := by
  induction ops with
  | nil => rfl
  | cons op ops ih =>
    have hop : itself inner op = .ok op := by
      unfold itself
      split
      · next unit => rw [if_pos (hcodes unit mem_cons_self)]
      · rfl
    rw [stream, hop, ih fun unit hunit => hcodes unit (mem_cons_of_mem _ hunit), traced_cons]
    rfl

end Tracing

theorem injectTracing_eq {ops : Stream}
    (hcodes : ∀ unit, .const (.code unit) ∈ ops → unit.flags.contains .newLocals = true) :
    injectTracing ops false = .ok (Tracing.traced ops) := Tracing.stream_eq _ hcodes

namespace Tracing

/-! ### Places -/

/-- Where instruction `n` comes to stand among the reports. -/
def place (ops : Stream) (n : Nat) : Nat := size (traced ((reals ops).take n))

theorem size_traced_reals (ops : Stream) : size (traced (reals ops)) = size (traced ops) := by
  induction ops with
  | nil => rfl
  | cons op ops ih =>
    by_cases hreal : op.isReal = true
    · rw [reals, filter_cons_of_pos hreal, size_traced_cons_of_isReal hreal,
        size_traced_cons_of_isReal hreal]
      exact congrArg _ ih
    · rw [reals, filter_cons_of_neg hreal,
        size_traced_cons_of_not_isReal (Bool.eq_false_iff.2 hreal)]
      exact ih

theorem take_reals (front rest : Stream) :
    (reals (front ++ rest)).take (size front) = reals front := by
  rw [reals_append, ← length_reals, take_left]

theorem place_size (front rest : Stream) :
    place (front ++ rest) (size front) = size (traced front) := by
  rw [place, take_reals, size_traced_reals]

theorem place_end (ops : Stream) : place ops (size ops) = size (traced ops) := by
  have h := place_size ops []
  rwa [append_nil] at h

theorem place_le (ops : Stream) (n : Nat) : place ops n ≤ size (traced ops) := by
  rw [← size_traced_reals ops, place]
  nth_rewrite 2 [← take_append_drop n (reals ops)]
  rw [traced_append, size_append]
  exact Nat.le_add_right _ _

theorem place_succ {ops : Stream} {n : Nat} {op : Op} (h : (reals ops)[n]? = some op) :
    place ops (n + 1) = place ops n + (report op).length + 1 := by
  have hreal : op.isReal = true := by
    have hmem := mem_of_getElem? h
    exact (mem_filter.1 hmem).2
  rw [place, place, take_add_one, h, Option.toList_some, traced_append, size_append,
    size_traced_cons_of_isReal hreal, traced_nil, size_nil]
  omega

theorem exists_front {ops : Stream} {n : Nat} {op : Op} (h : (reals ops)[n]? = some op) :
    ∃ front back, ops = front ++ op :: back ∧ size front = n ∧
      place ops n = size (traced front) ∧ op.isReal = true := by
  obtain ⟨front, back, hsplit, htake⟩ := exists_split h
  refine ⟨front, back, hsplit, ?_, ?_, (mem_filter.1 (mem_of_getElem? h)).2⟩
  · rw [← length_reals, ← htake, length_take]
    have := (List.getElem?_eq_some_iff.1 h).1
    omega
  · rw [place, htake, size_traced_reals]

theorem position?_traced (l : Label) (ops : Stream) :
    position? l 0 (traced ops) = (position? l 0 ops).map (place ops) := by
  -- The induction is on what is left of the stream; `front` is what lies before it.
  have hrest (front rest : Stream) (hops : ops = front ++ rest) :
      position? l (size (traced front)) (traced rest) =
        (position? l (size front) rest).map (place ops) := by
    induction rest generalizing front with
    | nil => rfl
    | cons op rest ih =>
      have hih := ih (front ++ [op]) (by rw [hops, append_assoc]; rfl)
      by_cases hreal : op.isReal = true
      · rw [traced_append, size_append, size_append, size_traced_cons_of_isReal hreal,
          size_cons_of_isReal hreal] at hih
        have hreport : position? l (size (traced front)) (report op) = none := by
          rw [← Option.not_isSome_iff_eq_none, isSome_position?_iff, mem_marks_iff]
          intro hmark
          cases isReal_of_mem_report hmark
        rw [traced_cons, position?_append, hreport, Option.none_or, size_report,
          position?_cons_of_isReal hreal, position?_cons_of_isReal hreal]
        exact hih
      · have hfalse := Bool.eq_false_iff.2 hreal
        rw [traced_append, size_append, size_append, size_traced_cons_of_not_isReal hfalse,
          size_cons_of_not_isReal hfalse] at hih
        rw [traced_cons, report_of_not_isReal hfalse, nil_append]
        cases op with
        | line n => exact hih
        | mark m =>
          by_cases hm : m = l
          · rw [position?, position?, if_pos hm, if_pos hm, Option.map_some, hops, place_size]
          · rw [position?, position?, if_neg hm, if_neg hm]
            exact hih
        | _ => cases hfalse
  exact hrest [] ops rfl

theorem lastLine_traced (line : UInt32) (ops : Stream) :
    lastLine line (traced ops) = lastLine line ops := by
  induction ops generalizing line with
  | nil => rfl
  | cons op ops ih =>
    rw [traced_cons, lastLine_append, lastLine_of_reals fun o ho => isReal_of_mem_report ho]
    cases op with
    | line n => exact ih n
    | _ => exact ih line

/-! ### Pools -/

structure Abreast (p q : Pools) : Prop where
  locals : q.varNames = slot :: p.varNames
  free : q.freeVars = p.freeVars
  consts : ∀ k, k.isLabel = false → p.consts.find? (·.sameAs k) = q.consts.find? (·.sameAs k)

section Interning

variable {α : Type} {same : α → α → Bool}

theorem intern_snd (same : α → α → Bool) (pool : List α) (x : α) :
    (intern same pool x).2 = if (pool.find? (same · x)).isSome then pool else pool ++ [x] := by
  have hfind : (pool.findIdx? (same · x)).isSome = (pool.find? (same · x)).isSome := by
    rw [findIdx?_isSome, Bool.eq_iff_iff, any_eq_true, find?_isSome]
  rw [intern, ← hfind]
  cases pool.findIdx? (same · x) <;> rfl

end Interning

theorem find?_intern_of_isLabel (pool : List Const) {k k' : Const} (hk : k.isLabel = true)
    (hk' : k'.isLabel = false) :
    (intern Const.sameAs pool k).2.find? (·.sameAs k') = pool.find? (·.sameAs k') := by
  rw [intern_snd]
  split_ifs
  · rfl
  · have hother : [k].find? (·.sameAs k') = none := by
      rw [find?_singleton, Const.sameAs_eq_false_of_isLabel hk hk']
      rfl
    rw [find?_append, hother, Option.or_none]

namespace Abreast

variable {p q p' q' : Pools} {whole whole' : Stream} {index index' : Nat} {op : Op}
  {arg arg' : UInt32}

variable (h : Abreast p q)
include h

theorem report (hop : isReportOp op = true)
    (harg : argument whole' index' q op = .ok (arg', q')) : Abreast p q' := by
  cases op with
  | line | mark | jump => cases hop
  | const k =>
    rw [argument, Pools.const_eq] at harg
    cases harg
    refine ⟨h.locals, h.free, fun k' hk' => ?_⟩
    exact (h.consts k' hk').trans (find?_intern_of_isLabel q.consts hop hk').symm
  | name o x =>
    rw [argument, Pools.name_eq] at harg
    cases harg
    cases hpool : o.pool with
    | names => exact ⟨h.locals, h.free, h.consts⟩
    | locals =>
      have hx : x = slot := by simpa [isReportOp, hpool] using hop
      refine ⟨?_, h.free, h.consts⟩
      show (intern (· == ·) q.varNames x).2 = _
      rw [intern_snd, h.locals, hx, if_pos (by simp)]
    | free => simp [isReportOp, hpool] at hop
  | _ =>
    cases harg
    exact h

theorem step (hop : touches op = false) (harg : argument whole index p op = .ok (arg, p'))
    (harg' : argument whole' index' q op = .ok (arg', q')) : Abreast p' q' := by
  cases op with
  | const k =>
    rw [argument, Pools.const_eq] at harg harg'
    cases harg
    cases harg'
    refine ⟨h.locals, h.free, fun k' hk' => ?_⟩
    show (intern Const.sameAs p.consts k).2.find? _ = (intern Const.sameAs q.consts k).2.find? _
    cases hk : k.isLabel with
    | true =>
      rw [find?_intern_of_isLabel _ hk hk', find?_intern_of_isLabel _ hk hk', h.consts k' hk']
    | false =>
      rw [intern_snd, intern_snd, h.consts k hk]
      split_ifs
      · exact h.consts k' hk'
      · rw [find?_append, find?_append, h.consts k' hk']
  | name o x =>
    rw [argument, Pools.name_eq] at harg harg'
    cases harg
    cases harg'
    cases hpool : o.pool with
    | names => exact ⟨h.locals, h.free, h.consts⟩
    | locals =>
      have hx : slot ≠ x := by
        rintro rfl
        simp [touches, hpool] at hop
      refine ⟨?_, h.free, h.consts⟩
      show (intern (· == ·) q.varNames x).2 = slot :: (intern (· == ·) p.varNames x).2
      rw [intern_snd, intern_snd, h.locals, find?_cons_of_neg (by simpa using hx)]
      split_ifs <;> rfl
    | free =>
      refine ⟨h.locals, ?_, h.consts⟩
      show (intern (· == ·) q.freeVars x).2 = (intern (· == ·) p.freeVars x).2
      rw [h.free]
  | jump o l =>
    rwa [(argument_jump_eq_ok_iff.1 harg).2, (argument_jump_eq_ok_iff.1 harg').2]
  | _ =>
    cases harg
    cases harg'
    exact h

theorem find?_getD (k : Const) :
    (q.consts.find? (·.sameAs k)).getD k = (p.consts.find? (·.sameAs k)).getD k := by
  cases hk : k.isLabel with
  | true =>
    have hself (pool : List Const) : (pool.find? (·.sameAs k)).getD k = k := by
      cases hfind : pool.find? (·.sameAs k) with
      | none => rfl
      | some y =>
        have hsame : y.sameAs k = true := by simpa using find?_some hfind
        exact Const.eq_of_sameAs_isLabel hk hsame
    rw [hself, hself]
  | false => rw [h.consts k hk]

theorem encode_report {ops : Stream} (hops : ∀ op ∈ ops, isReportOp op = true)
    {code : List Instruction} (hencode : encode whole' index' q ops = .ok (code, q')) :
    Abreast p q' :=
  keeps_of_encode (fun op hop _ _ _ _ harg h => h.report (hops op hop) harg) hencode h

theorem encode {ops : Stream} (hops : ∀ op ∈ ops, touches op = false)
    {code code' : List Instruction} (hcode : Assemble.encode whole index p ops = .ok (code, p'))
    (hcode' : Assemble.encode whole' index' q (traced ops) = .ok (code', q')) : Abreast p' q' := by
  induction ops generalizing p q index index' code code' with
  | nil =>
    cases hcode
    cases hcode'
    exact h
  | cons op ops ih =>
    have htail := fun o ho => hops o (mem_cons_of_mem op ho)
    rw [traced_cons] at hcode'
    obtain ⟨mid, front, back, hreport, hrest, -⟩ := encode_append_eq_ok_iff.1 hcode'
    have hmid := h.encode_report (fun o ho => isReportOp_of_mem ho) hreport
    cases hop : op.opcode with
    | none =>
      rw [encode_cons_of_marker hop] at hcode hrest
      exact ih hmid htail hcode hrest
    | some opcode =>
      obtain ⟨arg, next, tail, harg, hnext, -⟩ := (encode_cons_eq_ok_iff hop).1 hcode
      obtain ⟨arg', next', tail', harg', hnext', -⟩ := (encode_cons_eq_ok_iff hop).1 hrest
      exact ih (hmid.step (hops op mem_cons_self) harg harg') htail hnext hnext'

end Abreast

/-! ### A unit and its traced unit -/

/-- A unit and the unit of its traced stream. -/
structure Twins (fileName : String) (ops : Stream) (header : Header) (c t : Code) : Prop where
  plain : Assembled fileName ops header c
  traced : Assembled fileName (traced ops) { header with args := slot :: header.args } t
  untouched : ∀ op ∈ ops, touches op = false
  addressable : t.Addressable

structure Spells (c : Code) (op : Op) (i : Instruction) : Prop where
  opcode_eq : op.opcode = some i.opcode
  name : ∀ o x, op = .name o x → (c.pool o.pool)[i.arg.toNat]? = some x
  call : ∀ o args kwds, op = .call o args kwds → i.arg = argSpec args kwds

namespace Twins

variable {fileName : String} {ops : Stream} {header : Header} {c t : Code} {n : Nat} {op : Op}

section

variable (h : Twins fileName ops header c t)
include h

theorem length_plain : c.code.length = size ops :=
  length_of_encode h.plain.encode_eq

theorem length_traced :
    t.code.length = size (Tracing.traced ops) := length_of_encode h.traced.encode_eq

theorem size_lt : size (Tracing.traced ops) < 4294967296 :=
  h.traced.size_lt h.addressable

end

theorem size_le (ops : Stream) : size ops ≤ size (Tracing.traced ops) := by
  induction ops with
  | nil => exact le_rfl
  | cons op ops ih =>
    by_cases hreal : op.isReal = true
    · rw [size_cons_of_isReal hreal, size_traced_cons_of_isReal hreal]
      omega
    · rw [size_cons_of_not_isReal (Bool.eq_false_iff.2 hreal),
        size_traced_cons_of_not_isReal (Bool.eq_false_iff.2 hreal)]
      exact ih

variable (h : Twins fileName ops header c t)
include h

theorem abreast : Abreast c.pools t.pools := by
  have hstart : Abreast header.pools
      { varNames := slot :: header.args, freeVars := header.freeVars } := ⟨rfl, rfl, fun _ _ => rfl⟩
  exact hstart.encode h.untouched h.plain.encode_eq h.traced.encode_eq

theorem varNames_eq : t.varNames = slot :: c.varNames :=
  h.abreast.locals

theorem freeVars_eq : t.freeVars = c.freeVars := h.abreast.free

theorem addressable_plain : c.Addressable := by
  have hsize := h.size_lt
  have hle := size_le ops
  obtain ⟨hconsts, hnames⟩ := length_le_of_encode h.plain.encode_eq
  refine ⟨by rw [h.length_plain]; omega, ?_, fun pool => ?_⟩
  · have : c.consts.length ≤ 0 + size ops := hconsts
    omega
  · cases pool with
    | locals =>
      have hlocals := h.addressable.names .locals
      change t.varNames.length < _ at hlocals
      change c.varNames.length < _
      rw [h.varNames_eq, length_cons] at hlocals
      omega
    | names =>
      have : c.names.length ≤ 0 + size ops := hnames .names
      change c.names.length < _
      omega
    | free =>
      change c.freeVars.length < _
      rw [← h.freeVars_eq]
      exact h.addressable.names .free

theorem carries_report (hn : (reals ops)[n]? = some op) :
    Carries t (placeIn (Tracing.traced ops)) (place ops n) (report op) := by
  obtain ⟨front, back, rfl, -, hplace, -⟩ := exists_front hn
  have htraced := h.traced
  rw [traced_append, traced_cons] at htraced
  rw [hplace, traced_append, traced_cons]
  exact htraced.carries_between h.addressable _ _ _ rfl fun k hk k' _ =>
    Const.eq_of_sameAs_isLabel (isReportOp_of_mem hk)

theorem exists_op {i : Instruction} (hi : c.code[n]? = some i) :
    ∃ op, (reals ops)[n]? = some op ∧ Spells c op i := by
  obtain ⟨op, p, p', hop, hopcode, harg, hlast⟩ := getElem?_of_encode h.plain.encode_eq hi
  refine ⟨op, hop, hopcode, fun o x heq => ?_, fun o args kwds heq => ?_⟩
  · subst heq
    have hname := name_of_argument harg hlast
      (by rw [CodeOf.get_pools]; exact h.addressable_plain.names o.pool)
    rwa [CodeOf.get_pools] at hname
  · subst heq
    rw [argument, Except.ok.injEq, Prod.mk.injEq] at harg
    exact harg.1.symm

theorem exists_arguments (hn : (reals ops)[n]? = some op)
    {opcode : Opcode} (hopcode : op.opcode = some opcode) :
    ∃ p p' q q' arg arg', Abreast p q ∧ argument ops n p op = .ok (arg, p') ∧ p'.Upto c.pools ∧
      argument (Tracing.traced ops) (place ops n + (report op).length) q op = .ok (arg', q') ∧
      q'.Upto t.pools ∧ c.code[n]? = some ⟨opcode, arg⟩ ∧
      t.code[place ops n + (report op).length]? = some ⟨opcode, arg'⟩ := by
  obtain ⟨front, back, hsplit, hsize, hplace, -⟩ := exists_front hn
  have hplain : encode ops 0 header.pools
      (front ++ op :: back) = .ok (c.code, c.pools) := hsplit ▸ h.plain.encode_eq
  have htraced : encode (Tracing.traced ops) 0
      { varNames := slot :: header.args, freeVars := header.freeVars }
      (Tracing.traced front ++ (report op ++ op :: Tracing.traced back)) =
        .ok (t.code, t.pools) := by
    rw [← traced_cons, ← traced_append, ← hsplit]
    exact h.traced.encode_eq
  obtain ⟨p, first, rest, hfirst, hrest, hcode⟩ := encode_append_eq_ok_iff.1 hplain
  obtain ⟨arg, p', tail, harg, htail, rfl⟩ := (encode_cons_eq_ok_iff hopcode).1 hrest
  obtain ⟨mid, first', rest', hfirst', hrest', hcode'⟩ := encode_append_eq_ok_iff.1 htraced
  obtain ⟨q, between, last, hbetween, hlast, rfl⟩ := encode_append_eq_ok_iff.1 hrest'
  obtain ⟨arg', q', tail', harg', htail', rfl⟩ := (encode_cons_eq_ok_iff hopcode).1 hlast
  have hstart : Abreast header.pools
      { varNames := slot :: header.args, freeVars := header.freeVars } := ⟨rfl, rfl, fun _ _ => rfl⟩
  have hmid := hstart.encode (fun o ho => h.untouched o (hsplit ▸ mem_append_left _ ho))
    hfirst hfirst'
  have habreast := hmid.encode_report (fun o ho => isReportOp_of_mem ho) hbetween
  rw [Nat.zero_add] at harg harg'
  rw [size_report] at harg'
  have hn' : n = first.length := by rw [length_of_encode hfirst, hsize]
  have hplace' : place ops n + (report op).length = (first' ++ between).length := by
    rw [length_append, length_of_encode hfirst', length_of_encode hbetween, size_report, hplace]
  refine ⟨p, p', q, q', arg, arg', habreast, hsize ▸ harg, upto_of_encode htail,
    hplace ▸ harg', upto_of_encode htail', ?_, ?_⟩
  · rw [hcode, hn', getElem?_append_right le_rfl, Nat.sub_self]
    rfl
  · rw [hcode', ← append_assoc, hplace', getElem?_append_right le_rfl, Nat.sub_self]
    rfl

theorem lineFor_eq (hn : (reals ops)[n]? = some op) {k : Nat}
    (hk : k ≤ (report op).length) : t.lineFor (place ops n + k) = c.lineFor n := by
  obtain ⟨front, back, rfl, hsize, hplace, hreal⟩ := exists_front hn
  have hplain : c.lineFor (size front + 0) = lastLine header.firstLine front :=
    have hplain : Assembled fileName (front ++ ([op] ++ back)) header c := h.plain
    hplain.lineFor_part h.addressable_plain (by simpa using hreal) Nat.zero_lt_one
  have htraced := h.traced
  rw [traced_append, traced_cons, append_cons (report op)] at htraced
  have hreals : ∀ o ∈ report op ++ [op], o.isReal = true := by
    intro o ho
    rcases mem_append.1 ho with ho | ho
    · exact isReal_of_mem_report ho
    · rw [mem_singleton.1 ho, hreal]
  have hlt : k < (report op ++ [op]).length := by
    rw [length_append, length_singleton]
    omega
  rw [hplace, htraced.lineFor_part h.addressable hreals hlt, lastLine_traced, ← hplain, hsize,
    Nat.add_zero]

end Twins

end Tracing

end Bytewright
