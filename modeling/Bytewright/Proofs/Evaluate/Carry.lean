import Bytewright.Proofs.Evaluate.Perform
import Bytewright.Proofs.Scope.Resolve

/-!
# Streams in units

A unit carries the stream it was assembled from, and the parts of it.
-/

namespace Bytewright

open Assemble List

/-- The instruction at the index does what the operation says. -/
def Denotes (c : Code) (place : Label → Nat) (index : Nat) (i : Instruction) : Op → Prop
  | .line _ | .mark _ => False
  | .bare o => i.opcode = .bare o
  | .const k => i.opcode = .loadConst ∧ c.consts[i.arg.toNat]? = some k
  | .name o x => i.opcode = .name o ∧ (c.pool o.pool)[i.arg.toNat]? = some x
  | .count o n => i = ⟨.count o, n⟩
  | .arith o => i.opcode = .binaryOp ∧ ArithOp.ofIndex? i.arg.toNat = some o
  | .compare o => i.opcode = .compareOp ∧ CompareOp.ofIndex? i.arg.toNat = some o
  | .call o args kwds => i.opcode = .call o ∧ splitArgSpec i.arg = (args, kwds)
  | .jump o l => i.opcode = .jump o ∧ i.target index = some (place l)

/-- The instructions from `n` on do what the operations say, and the marks stand at their places. -/
def Carries (c : Code) (place : Label → Nat) (n : Nat) : Stream → Prop
  | [] => n ≤ c.code.length
  | .line _ :: ops => Carries c place n ops
  | .mark l :: ops => place l = n ∧ Carries c place n ops
  | op :: ops => (∃ i, c.code[n]? = some i ∧ Denotes c place n i op) ∧ Carries c place (n + 1) ops

variable {op : Op} {front back : Stream}

section Carries

variable {c : Code} {place : Label → Nat} {n : Nat}

theorem carries_cons_of_isReal (hop : op.isReal = true) {ops : Stream} :
    Carries c place n (op :: ops) ↔
      (∃ i, c.code[n]? = some i ∧ Denotes c place n i op) ∧ Carries c place (n + 1) ops := by
  cases op with
  | line | mark => cases hop
  | _ => rfl

theorem Carries.add_size_le {ops : Stream} (h : Carries c place n ops) :
    n + size ops ≤ c.code.length := by
  induction ops generalizing n with
  | nil => exact h
  | cons op ops ih =>
    cases hop : op.isReal with
    | true =>
      have hle := ih ((carries_cons_of_isReal hop).1 h).2
      rw [size_cons_of_isReal hop]
      omega
    | false =>
      rw [size_cons_of_not_isReal hop]
      cases op with
      | line m => exact ih h
      | mark l => exact ih h.2
      | _ => cases hop

theorem carries_append {a b : Stream} :
    Carries c place n (a ++ b) ↔ Carries c place n a ∧ Carries c place (n + size a) b := by
  induction a generalizing n with
  | nil =>
    refine ⟨fun h => ⟨?_, h⟩, fun h => h.2⟩
    have hle := h.add_size_le
    exact le_trans (Nat.le_add_right n _) hle
  | cons op a ih =>
    cases hop : op.isReal with
    | true =>
      rw [cons_append, carries_cons_of_isReal hop, carries_cons_of_isReal hop, ih,
        size_cons_of_isReal hop, and_assoc, Nat.add_right_comm, Nat.add_assoc]
    | false =>
      rw [size_cons_of_not_isReal hop]
      cases op with
      | line m => exact ih
      | mark l => exact (and_congr_right fun _ => ih).trans and_assoc.symm
      | _ => cases hop

end Carries

/-! ### Constants -/

/-- Constants that share a slot of the pool are the same. -/
def ConstantsApart (ops : Stream) : Prop :=
  ∀ k k', .const k ∈ ops → .const k' ∈ ops → k.sameAs k' = true → k = k'

mutual

def Const.isData : Const → Bool
  | .tuple items => allData items
  | .code _ => false
  | _ => true

def allData : List Const → Bool
  | [] => true
  | c :: cs => c.isData && allData cs

end

mutual

theorem Const.eq_of_sameAs :
    ∀ {a b : Const}, a.isData = true → a.sameAs b = true → a = b
  | .none, .none, _, _ => rfl
  | .bool _, .bool _, _, h => congrArg _ (eq_of_beq h)
  | .int _, .int _, _, h => congrArg _ (eq_of_beq h)
  | .float _, .float _, _, h => congrArg _ (eq_of_beq h)
  | .str _, .str _, _, h => congrArg _ (eq_of_beq h)
  | .tuple a, .tuple b, hdata, h => by
    rw [eq_of_sameList (show allData a = true from hdata) h]
  | .code _, _, hdata, _ => by cases hdata

theorem eq_of_sameList :
    ∀ {as bs : List Const}, allData as = true → sameList as bs = true → as = bs
  | [], [], _, _ => rfl
  | a :: as, b :: bs, hdata, h => by
    simp only [allData, sameList, Bool.and_eq_true] at hdata h
    rw [Const.eq_of_sameAs hdata.1 h.1, eq_of_sameList hdata.2 h.2]

end

theorem constantsApart_of_isData {ops : Stream} (h : ∀ k, .const k ∈ ops → k.isData = true) :
    ConstantsApart ops := fun k _ hk _ hsame => Const.eq_of_sameAs (h k hk) hsame

/-! ### Assembled units -/

def placeIn (ops : Stream) (l : Label) : Nat := (position? l 0 ops).getD 0

theorem placeIn_mark {l : Label} (h : (marks (front ++ .mark l :: back)).Nodup) :
    placeIn (front ++ .mark l :: back) l = size front := by
  rw [marks_append, nodup_append] at h
  have hnot : l ∉ marks front := fun hl => h.2.2 l hl l (by simp) rfl
  rw [placeIn, position?_append, OfCode.position?_eq_none_of_notMem hnot, Option.none_or,
    Nat.zero_add, position?, if_pos rfl]
  rfl

section Encode

variable {whole ops : Stream} {index : Nat} {p p' last : Pools} {code : List Instruction}
  {k : Const} {arg : UInt32}

theorem mem_consts_of_argument (h : argument whole index p op = .ok (arg, p'))
    (hk : k ∈ p'.consts) : k ∈ p.consts ∨ op = .const k := by
  cases op with
  | const c =>
    rw [argument, Pools.const_eq] at h
    cases h
    obtain ⟨i, y, -, hinterned⟩ := interned_intern Const.sameAs p.consts c
    rcases hinterned.found_or_added with ⟨-, heq⟩ | ⟨-, -, heq⟩
    · rw [heq] at hk
      exact .inl hk
    · rw [heq, mem_append, mem_singleton] at hk
      rcases hk with hk | rfl
      · exact .inl hk
      · exact .inr rfl
  | name o x =>
    rw [argument, Pools.name_eq] at h
    cases h
    rw [Pools.consts_set] at hk
    exact .inl hk
  | jump o l =>
    rw [(argument_jump_eq_ok_iff.1 h).2] at hk
    exact .inl hk
  | _ =>
    cases h
    exact .inl hk

theorem mem_consts_of_encode (h : encode whole index p ops = .ok (code, last))
    (hk : k ∈ last.consts) : k ∈ p.consts ∨ .const k ∈ ops := by
  refine keeps_of_encode (P := fun q => k ∈ q.consts → k ∈ p.consts ∨ .const k ∈ ops) ?_ h .inl hk
  intro op hop _ q _ q' harg hq hk
  rcases mem_consts_of_argument harg hk with hk | rfl
  · exact hq hk
  · exact .inr hop

theorem eq_getD_of_interned {α : Type} {same : α → α → Bool} {pool pool' : List α} {x y : α}
    {i : Nat}
    (h : Interned same pool x i y pool') : y = (pool.find? (same · x)).getD x := by
  rcases h.found_or_added with ⟨hsame, rfl⟩ | ⟨rfl, rfl, rfl⟩
  · have hfind : pool'.find? (same · x) = some y := by
      obtain ⟨hlt, hy⟩ := List.getElem?_eq_some_iff.1 h.get_eq
      refine List.find?_eq_some_iff_getElem.2 ⟨hsame, i, hlt, hy, fun j hj => ?_⟩
      rw [h.first j hj _ (List.getElem?_eq_getElem (hj.trans hlt))]
      rfl
    rw [hfind, Option.getD_some]
  · have hfind : pool.find? (same · y) = none :=
      find?_eq_none.2 fun z hz => by rw [h.none_of_added z hz]; simp
    rw [hfind, Option.getD_none]

theorem getElem?_of_const (h : argument whole index p (.const k) = .ok (arg, p'))
    (hlast : p'.Upto last) (hlength : last.consts.length < 4294967296) :
    last.consts[arg.toNat]? = some ((p.consts.find? (·.sameAs k)).getD k) := by
  rw [argument, Pools.const_eq] at h
  cases h
  obtain ⟨i, y, hi, hinterned⟩ := interned_intern Const.sameAs p.consts k
  have hget := getElem?_mono hlast.consts hinterned.get_eq
  have hlt := (List.getElem?_eq_some_iff.1 hget).1
  rw [hi, UInt32.toNat_ofNat_of_lt' (show i < 4294967296 by omega), ← eq_getD_of_interned hinterned]
  exact hget

theorem const_of_argument (h : argument whole index p (.const k) = .ok (arg, p'))
    (hlast : p'.Upto last) (hlength : last.consts.length < 4294967296) :
    ∃ k', last.consts[arg.toNat]? = some k' ∧ (k' = k ∨ k'.sameAs k = true) := by
  refine ⟨_, getElem?_of_const h hlast hlength, ?_⟩
  cases hfind : p.consts.find? (·.sameAs k) with
  | none => exact .inl rfl
  | some k' => exact .inr (by simpa using List.find?_some hfind)

end Encode

namespace Assembled

variable {fileName : String} {ops : Stream} {header : Header} {c : Code}

section

variable (h : Assembled fileName ops header c)
include h

theorem denotes (hc : c.Addressable) {index : Nat}
    {p p' : Pools} {i : Instruction} (hop : op.opcode = some i.opcode)
    (hapart : ∀ k, op = .const k → ∀ k' ∈ c.consts, k'.sameAs k = true → k' = k)
    (harg : argument ops index p op = .ok (i.arg, p')) (hlast : p'.Upto c.pools) :
    Denotes c (placeIn ops) index i op := by
  obtain ⟨opcode, arg⟩ := i
  cases op with
  | line | mark => cases hop
  | const k =>
    cases hop
    obtain ⟨k', hk', hsame⟩ := const_of_argument harg hlast hc.consts
    refine ⟨rfl, ?_⟩
    rcases hsame with rfl | hsame
    · exact hk'
    · rw [← hapart k rfl k' (mem_of_getElem? hk') hsame]
      exact hk'
  | name o x =>
    cases hop
    have hlength : (c.pools.get o.pool).length < 4294967296 := by
      rw [CodeOf.get_pools]
      exact hc.names o.pool
    have hget := name_of_argument harg hlast hlength
    rw [CodeOf.get_pools] at hget
    exact ⟨rfl, hget⟩
  | jump o l =>
    cases hop
    obtain ⟨q, hq, htarget⟩ := exists_position?_of_argument (h.size_lt hc) harg
    exact ⟨rfl, by rw [placeIn, hq]; exact htarget⟩
  | arith o =>
    cases hop
    cases harg
    exact ⟨rfl, ArithOp.ofIndex?_index o⟩
  | compare o =>
    cases hop
    cases harg
    exact ⟨rfl, CompareOp.ofIndex?_index o⟩
  | call o args kwds =>
    cases hop
    cases harg
    exact ⟨rfl, splitArgSpec_argSpec args kwds⟩
  | bare o | count o n =>
    cases hop
    cases harg
    rfl

theorem carries_between (hc : c.Addressable)
    (front part back : Stream) (hops : front ++ (part ++ back) = ops)
    (hapart : ∀ k, .const k ∈ part → ∀ k' ∈ c.consts, k'.sameAs k = true → k' = k) :
    Carries c (placeIn ops) (size front) part := by
  induction part generalizing front with
  | nil =>
    show size front ≤ c.code.length
    rw [length_of_encode h.encode_eq, ← hops, size_append]
    exact Nat.le_add_right _ _
  | cons op part ih =>
    have hrest := ih (front ++ [op]) (by rw [← hops]; simp) fun k hk =>
      hapart k (mem_cons_of_mem _ hk)
    by_cases hop : op.isReal = true
    · rw [size_append, size_cons_of_isReal hop, size_nil] at hrest
      have hlt : size front < c.code.length := by
        rw [length_of_encode h.encode_eq, ← hops, size_append, cons_append, size_cons_of_isReal hop]
        omega
      have hi : c.code[size front]? = some (c.code.get ⟨size front, hlt⟩) :=
        getElem?_eq_getElem hlt
      obtain ⟨op', q, q', hop', hopcode, harg, hlast⟩ := getElem?_of_encode h.encode_eq hi
      obtain rfl : op = op' := by
        rw [← hops, cons_append, reals_append, ← length_reals,
          getElem?_append_right le_rfl, Nat.sub_self, reals_cons_of_isReal hop] at hop'
        exact Option.some.inj hop'
      rw [Nat.zero_add] at harg
      refine (carries_cons_of_isReal hop).2 ⟨⟨_, hi, ?_⟩, hrest⟩
      exact h.denotes hc hopcode (fun k hk => hapart k (hk ▸ mem_cons_self)) harg hlast
    · rw [size_append, size_cons_of_not_isReal (Bool.eq_false_iff.2 hop), size_nil] at hrest
      cases op with
      | line n => exact hrest
      | mark l =>
        refine ⟨?_, hrest⟩
        have hmarks := (checkLabels_eq_ok_iff.1 h.labels).1
        rw [← hops, cons_append] at hmarks ⊢
        exact placeIn_mark hmarks
      | _ => exact absurd rfl hop

theorem carries (hc : c.Addressable)
    (hapart : ConstantsApart ops) : Carries c (placeIn ops) 0 ops :=
  h.carries_between hc [] ops [] (append_nil ops) fun k hk k' hk' hsame =>
    hapart k' k ((mem_consts_of_encode h.encode_eq hk').resolve_left (by simp)) hk hsame

end

theorem lineFor_part {part : Stream} (h : Assembled fileName (front ++ (part ++ back)) header c)
    (hc : c.Addressable) (hreal : ∀ op ∈ part, op.isReal = true) {k : Nat} (hk : k < part.length) :
    c.lineFor (size front + k) = lastLine header.firstLine front := by
  have hbefore : ∀ op ∈ part.take k, op.isReal = true := fun op hop =>
    hreal op (mem_of_mem_take hop)
  have hsplit : front ++ (part ++ back) =
      (front ++ part.take k) ++ part.get ⟨k, hk⟩ :: (part.drop (k + 1) ++ back) := by
    rw [append_assoc, ← cons_append, get_eq_getElem, ← drop_eq_getElem_cons,
      ← append_assoc (part.take k), take_append_drop]
  have hsize : size front + k = size (front ++ part.take k) := by
    rw [size_append, size, size, countP_eq_length.2 hbefore, length_take, Nat.min_eq_left hk.le]
  have hlines := lineIn_lineTable_append (hreal _ (get_mem part ⟨k, hk⟩))
    (front ++ part.take k) (part.drop (k + 1) ++ back) (hsplit ▸ h.size_lt hc) header.firstLine
  rw [CodeOf.lineFor, h.lines_eq, h.firstLine_eq, hsize, hsplit, hlines, lastLine_append,
    lastLine_of_reals hbefore]

end Assembled

end Bytewright
