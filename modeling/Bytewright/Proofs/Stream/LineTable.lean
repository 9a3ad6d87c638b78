import Bytewright.Proofs.Stream.Decompile

/-!
# Line tables

The table of a unit that is assembled again depends only on the lines of the instructions, which are
the same under both tables.
-/

namespace Bytewright

open List

variable {lines : List (UInt32 × UInt32)}

namespace CodeOf

/-! ### The line of an instruction -/

variable {index : Nat} {a b : List (UInt32 × UInt32)}

theorem lineIn_append_of_lt (hb : ∀ e ∈ b, index < e.1.toNat) (line : UInt32) :
    lineIn index line (a ++ b) = lineIn index line a := by
  induction a generalizing line with
  | nil =>
    cases b with
    | nil => rfl
    | cons e b => exact if_pos (hb e mem_cons_self)
  | cons e a ih =>
    rw [cons_append, lineIn, lineIn]
    split
    · rfl
    · exact ih e.2

theorem lineIn_append_of_le (ha : ∀ e ∈ a, e.1.toNat ≤ index) (line : UInt32) :
    lineIn index line (a ++ b) = lineIn index (lineIn index line a) b := by
  induction a generalizing line with
  | nil => rfl
  | cons e a ih =>
    have he : ¬index < e.1.toNat := Nat.not_lt.2 (ha e mem_cons_self)
    rw [cons_append, lineIn, lineIn, if_neg he, if_neg he]
    exact ih (fun e' he' => ha e' (mem_cons_of_mem _ he')) e.2

theorem lineIn_succ_of_forall_ne (h : ∀ e ∈ lines, e.1.toNat ≠ index + 1) (line : UInt32) :
    lineIn (index + 1) line lines = lineIn index line lines := by
  induction lines generalizing line with
  | nil => rfl
  | cons e lines ih =>
    have he := h e mem_cons_self
    rw [lineIn, lineIn]
    by_cases hlt : index < e.1.toNat
    · rw [if_pos hlt, if_pos (by omega)]
    · rw [if_neg hlt, if_neg (by omega)]
      exact ih (fun e' he' => h e' (mem_cons_of_mem _ he')) e.2

end CodeOf

namespace Assemble

open CodeOf OfCode

/-! ### Tables in order -/

def Ordered (lines : List (UInt32 × UInt32)) : Prop :=
  lines.Pairwise fun a b => a.1.toNat < b.1.toNat

theorem Ordered.lineIn_eq (h : Ordered lines) {e : UInt32 × UInt32} (he : e ∈ lines)
    (line : UInt32) : lineIn e.1.toNat line lines = e.2 := by
  obtain ⟨a, b, rfl⟩ := append_of_mem he
  obtain ⟨-, hb, hab⟩ := pairwise_append.1 h
  have ha : ∀ d ∈ a, d.1.toNat ≤ e.1.toNat := fun d hd => (hab d hd e mem_cons_self).le
  rw [lineIn_append_of_le ha, lineIn, if_neg (lt_irrefl _), ← nil_append b]
  exact lineIn_append_of_lt (pairwise_cons.1 hb).1 e.2

def OrderedUpto (index : Nat) (table : List (UInt32 × UInt32)) : Prop :=
  Ordered table.reverse ∧ ∀ e ∈ table, e.1.toNat ≤ index

theorem OrderedUpto.addLine {index : Nat} {table : List (UInt32 × UInt32)}
    (h : OrderedUpto index table) (hindex : index < 4294967296) (n : UInt32) :
    OrderedUpto index (addLine index n table) := by
  have hplace : (UInt32.ofNat index).toNat = index := UInt32.toNat_ofNat_of_lt' hindex
  obtain ⟨hordered, hle⟩ := h
  cases table with
  | nil =>
    refine ⟨pairwise_singleton _ _, fun e he => ?_⟩
    rw [mem_singleton.1 he]
    exact hplace.le
  | cons e table =>
    rw [Ordered, pairwise_reverse, pairwise_cons] at hordered
    rw [Assemble.addLine]
    by_cases hstart : e.1.toNat = index
    · rw [if_pos hstart]
      refine ⟨?_, fun d hd => ?_⟩
      · rw [Ordered, pairwise_reverse, pairwise_cons]
        exact hordered
      · rcases mem_cons.1 hd with rfl | hd
        · exact hstart.le
        · exact hle d (mem_cons_of_mem _ hd)
    · rw [if_neg hstart]
      by_cases hline : e.2 = n
      · rw [if_pos hline]
        refine ⟨?_, hle⟩
        rw [Ordered, pairwise_reverse, pairwise_cons]
        exact hordered
      · rw [if_neg hline]
        refine ⟨?_, fun d hd => ?_⟩
        · rw [Ordered, pairwise_reverse, pairwise_cons, pairwise_cons]
          refine ⟨fun d hd => ?_, hordered⟩
          have hlast : e.1.toNat < index := lt_of_le_of_ne (hle e mem_cons_self) hstart
          rw [hplace]
          rcases mem_cons.1 hd with rfl | hd
          · exact hlast
          · exact (hordered.1 d hd).trans hlast
        · rcases mem_cons.1 hd with rfl | hd
          · exact hplace.le
          · exact hle d hd

theorem ordered_lineTable {index : Nat} {table : List (UInt32 × UInt32)} {ops : Stream}
    (h : OrderedUpto index table) (hsize : index + size ops < 4294967296) :
    Ordered (lineTable index table ops) := by
  induction ops generalizing index table with
  | nil => exact h.1
  | cons op ops ih =>
    by_cases hreal : op.isReal = true
    · rw [size_cons_of_isReal hreal] at hsize
      have hnext : lineTable index table (op :: ops) = lineTable (index + 1) table ops := by
        cases op with
        | line | mark => cases hreal
        | _ => rfl
      rw [hnext]
      exact ih ⟨h.1, fun e he => (h.2 e he).trans (Nat.le_succ _)⟩ (by omega)
    · rw [size_cons_of_not_isReal (Bool.eq_false_iff.2 hreal)] at hsize
      cases op with
      | line n => exact ih (h.addLine (by omega) n) hsize
      | mark l => exact ih h hsize
      | _ => exact absurd rfl hreal

/-! ### The table of changes -/

def lineChanges (line : Nat → UInt32) : Nat → List (UInt32 × UInt32)
  | 0 => []
  | i + 1 =>
    if i = 0 ∨ line i ≠ line (i - 1) then lineChanges line i ++ [(UInt32.ofNat i, line i)]
    else lineChanges line i

variable {line : Nat → UInt32} {n : Nat} {ops : Stream} {index : Nat}
  {table : List (UInt32 × UInt32)} {e : UInt32 × UInt32} {last : Nat}

theorem lineChanges_congr {line' : Nat → UInt32} (h : ∀ i < n, line i = line' i) :
    lineChanges line n = lineChanges line' n := by
  induction n with
  | zero => rfl
  | succ n ih =>
    rw [lineChanges, lineChanges, ih fun i hi => h i (hi.trans (Nat.lt_succ_self n)),
      h n (Nat.lt_succ_self n), h (n - 1) (by omega)]

theorem start_lt_of_mem_lineChanges (hn : n ≤ 4294967296) (he : e ∈ lineChanges line n) :
    e.1.toNat < n := by
  induction n with
  | zero => cases he
  | succ n ih =>
    rw [lineChanges] at he
    split at he
    · rcases mem_append.1 he with he | he
      · exact (ih (by omega) he).trans (Nat.lt_succ_self n)
      · rw [mem_singleton.1 he, UInt32.toNat_ofNat_of_lt' (show n < 4294967296 by omega)]
        exact Nat.lt_succ_self n
    · exact (ih (by omega) he).trans (Nat.lt_succ_self n)

theorem lineChanges_succ_eq_append (line : Nat → UInt32) (n : Nat) :
    ∃ front start, lineChanges line (n + 1) = front ++ [(start, line n)] := by
  induction n with
  | zero => exact ⟨[], UInt32.ofNat 0, rfl⟩
  | succ n ih =>
    rw [lineChanges]
    by_cases hchange : n + 1 = 0 ∨ line (n + 1) ≠ line (n + 1 - 1)
    · exact ⟨lineChanges line (n + 1), UInt32.ofNat (n + 1), if_pos hchange⟩
    · rw [if_neg hchange]
      have hsame : line (n + 1) = line n := by
        by_contra hne
        exact hchange (.inr hne)
      rw [hsame]
      exact ih

theorem lineIn_lineChanges (hn : n ≤ 4294967296) {i : Nat} (hi : i < n) (first : UInt32) :
    lineIn i first (lineChanges line n) = line i := by
  induction n with
  | zero => omega
  | succ n ih =>
    rcases Nat.lt_succ_iff_lt_or_eq.1 hi with hlt | rfl
    · rw [lineChanges]
      split
      · rw [lineIn_append_of_lt, ih (by omega) hlt]
        intro e he
        rw [mem_singleton.1 he, UInt32.toNat_ofNat_of_lt' (show n < 4294967296 by omega)]
        exact hlt
      · exact ih (by omega) hlt
    · have hle : ∀ e ∈ lineChanges line (i + 1), e.1.toNat ≤ i := fun e he =>
        Nat.lt_succ_iff.1 (start_lt_of_mem_lineChanges hn he)
      obtain ⟨front, start, heq⟩ := lineChanges_succ_eq_append line i
      rw [heq] at hle ⊢
      rw [lineIn_append_of_le fun e he => hle e (mem_append_left _ he), lineIn,
        if_neg (Nat.not_lt.2 (hle (start, line i) (by simp))), lineIn]

/-! ### Where a table ends -/

theorem lineTable_append (index : Nat) (table : List (UInt32 × UInt32)) (a b : Stream) :
    lineTable index table (a ++ b) =
      lineTable (index + size a) (lineTable index table a).reverse b := by
  induction a generalizing index table with
  | nil =>
    rw [nil_append, lineTable, reverse_reverse]
    rfl
  | cons op a ih =>
    cases op with
    | line n => exact ih index (addLine index n table)
    | mark l => exact ih index table
    | _ =>
      rw [size_cons_of_isReal rfl, Nat.add_comm (size a) 1, ← Nat.add_assoc]
      exact ih (index + 1) table

theorem lineTable_of_reals (h : ∀ op ∈ ops, op.isReal = true) (index : Nat)
    (table : List (UInt32 × UInt32)) : lineTable index table ops = table.reverse := by
  induction ops generalizing index with
  | nil => rfl
  | cons op ops ih =>
    have htail := ih (fun op hop => h op (mem_cons_of_mem _ hop)) (index + 1)
    cases op with
    | line | mark => cases h _ mem_cons_self
    | _ => exact htail

theorem start_le_of_mem_addLine {n : UInt32} (htable : ∀ e ∈ table, e.1.toNat ≤ index)
    (he : e ∈ addLine index n table) : e.1.toNat ≤ index := by
  have hnew := toNat_ofNat_le index
  cases table with
  | nil =>
    rw [mem_singleton.1 he]
    exact hnew
  | cons d table =>
    rw [addLine] at he
    split_ifs at he with hstart hline
    · rcases mem_cons.1 he with rfl | he
      · exact hstart.le
      · exact htable e (mem_cons_of_mem _ he)
    · exact htable e he
    · rcases mem_cons.1 he with rfl | he
      · exact hnew
      · exact htable e he

theorem start_le_of_mem_lineTable (htable : ∀ e ∈ table, e.1.toNat ≤ index)
    (he : e ∈ lineTable index table ops) : e.1.toNat ≤ index + size ops := by
  induction ops generalizing index table with
  | nil => exact htable e (mem_reverse.1 he)
  | cons op ops ih =>
    cases op with
    | line n => exact ih (fun e he => start_le_of_mem_addLine htable he) he
    | mark l => exact ih htable he
    | _ =>
      have := ih (fun e he => (htable e he).trans (Nat.le_succ _)) he
      rw [size_cons_of_isReal rfl]
      omega

/-! ### Lines of operations -/

def lastLine (line : UInt32) : Stream → UInt32
  | [] => line
  | .line n :: ops => lastLine n ops
  | _ :: ops => lastLine line ops

theorem lastLine_append (line : UInt32) (a b : Stream) :
    lastLine line (a ++ b) = lastLine (lastLine line a) b := by
  induction a generalizing line with
  | nil => rfl
  | cons op a ih =>
    cases op with
    | line n => exact ih n
    | _ => exact ih line

theorem lastLine_of_reals (h : ∀ op ∈ ops, op.isReal = true) (line : UInt32) :
    lastLine line ops = line := by
  induction ops with
  | nil => rfl
  | cons op ops ih =>
    have htail := ih fun op hop => h op (mem_cons_of_mem _ hop)
    cases op with
    | line n => cases h _ mem_cons_self
    | _ => exact htail

theorem lineIn_reverse_addLine (hlast : index ≤ last) (first n : UInt32)
    (htable : ∀ e ∈ table, e.1.toNat ≤ index) :
    lineIn last first (addLine index n table).reverse = n := by
  have hle : ∀ e ∈ addLine index n table, e.1.toNat ≤ last := fun e he =>
    (start_le_of_mem_addLine htable he).trans hlast
  obtain ⟨start, earlier, heq⟩ : ∃ start earlier, addLine index n table =
      (start, n) :: earlier := by
    unfold addLine
    split
    · exact ⟨_, _, rfl⟩
    · split_ifs with hstart hline
      · exact ⟨_, _, rfl⟩
      · exact ⟨_, _, by rw [hline]⟩
      · exact ⟨_, _, rfl⟩
  rw [heq] at hle ⊢
  rw [reverse_cons, lineIn_append_of_le fun e he =>
    hle e (mem_cons_of_mem _ (mem_reverse.1 he)), lineIn,
    if_neg (Nat.not_lt.2 (hle _ mem_cons_self)), lineIn]

theorem lineIn_lineTable (htable : ∀ e ∈ table, e.1.toNat ≤ index) (hlast : index + size ops ≤ last)
    (first : UInt32) :
    lineIn last first (lineTable index table ops) =
      lastLine (lineIn last first table.reverse) ops := by
  induction ops generalizing index table with
  | nil => rfl
  | cons op ops ih =>
    cases op with
    | line n =>
      rw [size_cons_of_not_isReal rfl] at hlast
      refine (ih (fun e he => start_le_of_mem_addLine htable he) hlast).trans ?_
      rw [lineIn_reverse_addLine (by omega) first n htable]
      rfl
    | mark l =>
      rw [size_cons_of_not_isReal rfl] at hlast
      exact ih htable hlast
    | _ =>
      rw [size_cons_of_isReal rfl] at hlast
      exact ih (fun e he => (htable e he).trans (Nat.le_succ _)) (by omega)

theorem lineTable_eq_append {start : Nat} {later earlier : List (UInt32 × UInt32)}
    (hearlier : ∀ e ∈ earlier, e.1.toNat < start)
    (hlater : ∀ e ∈ later, start ≤ e.1.toNat) (hstart : start ≤ index)
    (hsize : index + size ops < 4294967296) :
    ∃ new, lineTable index (later ++ earlier) ops = earlier.reverse ++ new ∧
      ∀ e ∈ new, start ≤ e.1.toNat := by
  induction ops generalizing index later with
  | nil =>
    refine ⟨later.reverse, by rw [lineTable, reverse_append], fun e he => ?_⟩
    exact hlater e (mem_reverse.1 he)
  | cons op ops ih =>
    cases op with
    | line n =>
      rw [size_cons_of_not_isReal rfl] at hsize
      have hplace : (UInt32.ofNat index).toNat = index :=
        UInt32.toNat_ofNat_of_lt' (show index < 4294967296 by omega)
      obtain ⟨later', hadd, hlater'⟩ : ∃ later', addLine index n (later ++ earlier) =
        later' ++ earlier ∧
          ∀ e ∈ later', start ≤ e.1.toNat := by
        have hnew : start ≤ (UInt32.ofNat index).toNat := by rwa [hplace]
        cases later with
        | nil =>
          cases earlier with
          | nil => exact ⟨[(UInt32.ofNat index, n)], rfl, by simpa using hnew⟩
          | cons e earlier =>
            have hlt := hearlier e mem_cons_self
            rw [nil_append, addLine, if_neg (by omega)]
            split_ifs
            · exact ⟨[], rfl, hlater⟩
            · exact ⟨[(UInt32.ofNat index, n)], rfl, by simpa using hnew⟩
        | cons e later =>
          have he := hlater e mem_cons_self
          have htail : ∀ d ∈ later, start ≤ d.1.toNat := fun d hd =>
            hlater d (mem_cons_of_mem _ hd)
          rw [cons_append, addLine]
          split_ifs
          · exact ⟨(e.1, n) :: later, rfl, forall_mem_cons.2 ⟨he, htail⟩⟩
          · exact ⟨e :: later, rfl, hlater⟩
          · exact ⟨(UInt32.ofNat index, n) :: e :: later, rfl, forall_mem_cons.2 ⟨hnew, hlater⟩⟩
      obtain ⟨new, hnew, hall⟩ := ih hlater' hstart hsize
      exact ⟨new, by rw [lineTable, hadd, hnew], hall⟩
    | mark l =>
      rw [size_cons_of_not_isReal rfl] at hsize
      exact ih hlater hstart hsize
    | _ =>
      rw [size_cons_of_isReal rfl] at hsize
      exact ih hlater (hstart.trans (Nat.le_succ _)) (by omega)

theorem lineIn_lineTable_append {op : Op} (hop : op.isReal = true) (front back : Stream)
    (hsize : size (front ++ op :: back) < 4294967296) (first : UInt32) :
    lineIn (size front) first (lineTable 0 [] (front ++ op :: back)) = lastLine first front := by
  have hnone : ∀ e ∈ ([] : List (UInt32 × UInt32)), e.1.toNat ≤ 0 := fun e he => by cases he
  rw [size_append, size_cons_of_isReal hop] at hsize
  have hnext : ∀ table, lineTable (size front) table (op :: back) =
      lineTable (size front + 1) table back := by
    intro table
    cases op with
    | line | mark => cases hop
    | _ => rfl
  have hearlier : ∀ e ∈ (lineTable 0 [] front).reverse, e.1.toNat < size front + 1 := fun e he => by
    have := start_le_of_mem_lineTable hnone (mem_reverse.1 he)
    omega
  obtain ⟨new, hnew, hall⟩ : ∃ new, lineTable (size front + 1)
    ([] ++ (lineTable 0 [] front).reverse)
      back = (lineTable 0 [] front).reverse.reverse ++ new ∧
        ∀ e ∈ new, size front + 1 ≤ e.1.toNat :=
    lineTable_eq_append hearlier (fun e he => by cases he) le_rfl (by omega)
  rw [nil_append] at hnew
  rw [lineTable_append, Nat.zero_add, hnext, hnew, reverse_reverse,
    lineIn_append_of_lt fun e he => hall e he, lineIn_lineTable hnone (by omega)]
  rfl

/-! ### The table of a decompiled unit -/

variable {c : Code} {targets : Targets} {index : Nat}

theorem lineAt_eq (h : Ordered c.lines) (index : Nat) :
    lineAt c index = [.line (c.lineFor index)] ∨
      (lineAt c index = [] ∧ index ≠ 0 ∧ c.lineFor index = c.lineFor (index - 1)) := by
  rw [lineAt]
  cases hfind : c.lines.reverse.find? fun entry => entry.1.toNat == index with
  | some e =>
    have hmem : e ∈ c.lines := mem_reverse.1 (mem_of_find?_eq_some hfind)
    have hstart : e.1.toNat = index := by simpa using find?_some hfind
    left
    rw [CodeOf.lineFor, ← hstart, h.lineIn_eq hmem]
  | none =>
    have hne : ∀ e ∈ c.lines, e.1.toNat ≠ index := by
      intro e he
      simpa using find?_eq_none.1 hfind e (mem_reverse.2 he)
    cases index with
    | zero =>
      left
      have hlt : ∀ e ∈ c.lines, 0 < e.1.toNat := fun e he => Nat.pos_of_ne_zero (hne e he)
      rw [CodeOf.lineFor, ← nil_append c.lines, lineIn_append_of_lt hlt]
      rfl
    | succ index =>
      exact .inr ⟨rfl, Nat.succ_ne_zero index, lineIn_succ_of_forall_ne hne c.firstLine⟩

theorem lineTable_markAt_append (index place : Nat) (table : List (UInt32 × UInt32))
    (rest : Stream) :
    lineTable index table (markAt targets place ++ rest) = lineTable index table rest := by
  rw [markAt]
  cases targets.lookup place <;> rfl

theorem addLine_lineChanges (hindex : index < 4294967296) :
    addLine index (line index) (lineChanges line index).reverse =
      (lineChanges line (index + 1)).reverse := by
  cases index with
  | zero => rfl
  | succ index =>
    rw [lineChanges.eq_def line (index + 1 + 1)]
    obtain ⟨front, start, heq⟩ := lineChanges_succ_eq_append line index
    have hstart : start.toNat ≠ index + 1 := by
      have hlt := start_lt_of_mem_lineChanges hindex.le
        (show (start, line index) ∈ lineChanges line (index + 1) by simp [heq])
      exact hlt.ne
    simp only [Nat.succ_ne_zero, false_or, Nat.add_sub_cancel]
    rw [heq, reverse_append, reverse_singleton, singleton_append, addLine, if_neg hstart]
    by_cases hchange : line index = line (index + 1)
    · rw [if_pos hchange, if_neg (not_not.2 hchange.symm), reverse_append,
        reverse_singleton, singleton_append]
    · rw [if_neg hchange, if_pos (Ne.symm hchange)]
      simp

theorem lineTable_lineAt_append (h : Ordered c.lines) (hindex : index < 4294967296)
    (rest : Stream) :
    lineTable index (lineChanges c.lineFor index).reverse (lineAt c index ++ rest) =
      lineTable index (lineChanges c.lineFor (index + 1)).reverse rest := by
  rcases lineAt_eq h index with hline | ⟨hnone, hpos, hsame⟩
  · rw [hline, singleton_append, lineTable, addLine_lineChanges hindex]
  · rw [hnone, nil_append, lineChanges, if_neg]
    rintro (hzero | hchange)
    · exact hpos hzero
    · exact hchange hsame

theorem lineTable_operations (h : Ordered c.lines) {code : List Instruction}
    (hops : operations c targets index code = .ok ops) (hsize : index + code.length ≤ 4294967296)
    (back : Stream) :
    lineTable index (lineChanges c.lineFor index).reverse (ops ++ back) =
      lineTable (index + code.length)
        (lineChanges c.lineFor (index + code.length)).reverse back := by
  induction code generalizing index ops with
  | nil =>
    cases hops
    rfl
  | cons i code ih =>
    obtain ⟨op, tail, hop, htail, rfl⟩ := operations_cons_eq_ok_iff.1 hops
    have hreal := isReal_of_operation hop
    have hnext : ∀ table rest, lineTable index table (op :: rest) =
        lineTable (index + 1) table rest := by
      intro table rest
      cases op with
      | line | mark => cases hreal
      | _ => rfl
    rw [length_cons] at hsize ⊢
    rw [append_assoc, append_assoc, lineTable_markAt_append,
      lineTable_lineAt_append h (by omega), cons_append, hnext, ih htail (by omega),
      Nat.add_assoc, Nat.add_comm 1]

theorem lineTable_stream (h : Ordered c.lines) (hne : c.code ≠ [])
    (hsize : c.code.length ≤ 4294967296) (hops : operations c targets 0 c.code = .ok ops) :
    lineTable 0 [] (stream c targets ops) = lineChanges c.lineFor c.code.length := by
  have hopening : (if c.code.isEmpty then [Op.line c.firstLine] else []) = [] := by
    rw [if_neg]
    simpa using hne
  have htable := lineTable_operations h hops (by omega) (markAt targets c.code.length ++ [])
  rw [lineTable_markAt_append, append_nil, Nat.zero_add] at htable
  rw [stream, hopening, append_nil]
  refine htable.trans ?_
  rw [lineTable, reverse_reverse]

end Assemble

end Bytewright
