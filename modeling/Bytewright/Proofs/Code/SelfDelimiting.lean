import Mathlib
import Bytewright.Code.Binary

/-!
# The binary form tells where it ends

Every level of nesting takes a byte, so the depth that readers of constants count down lasts as long
as the bytes do.
-/

namespace Bytewright

open List

namespace Binary

variable {α β : Type} {depth : Nat} {bytes bytes' : Bytes}

/-- The bytes are read as `a`, whatever follows them, and what lacks the end is refused for it. -/
structure Reads (depth : Nat) (r : Reader α) (bytes : Bytes) (a : α) : Prop where
  whole : bytes.length ≤ depth → ∀ rest, r (bytes ++ rest) = .ok (a, rest)
  cut : ∀ p q, bytes = p ++ q → q ≠ [] → p.length ≤ depth → r p = .error .unexpectedEnd

namespace Reads

variable {r : Reader α} {g : α → Reader β} {a : α} {b : β}

theorem pure (a : α) : Reads depth (Pure.pure a) [] a where
  whole _ _ := rfl
  cut _ _ h hq _ := absurd (append_eq_nil_iff.1 h.symm).2 hq

theorem bind (hr : Reads depth r bytes a) (hg : Reads depth (g a) bytes' b) :
    Reads depth (r >>= g) (bytes ++ bytes') b where
  whole h rest := by
    rw [length_append] at h
    show (r (bytes ++ bytes' ++ rest) >>= fun x => g x.1 x.2) = _
    rw [append_assoc, hr.whole (by omega)]
    exact hg.whole (by omega) rest
  cut p q h hq hp := by
    show (r p >>= fun x => g x.1 x.2) = _
    rcases append_eq_append_iff.1 h with ⟨p', rfl, hcut⟩ | ⟨q', hcut, rfl⟩
    · -- the first part is there, the second one is cut
      rw [length_append] at hp
      rw [hr.whole (by omega)]
      exact hg.cut p' q hcut hq (by omega)
    · rcases eq_or_ne q' [] with rfl | hq'
      · rw [append_nil] at hcut
        subst hcut
        have hwhole := hr.whole hp []
        rw [append_nil] at hwhole
        rw [hwhole]
        exact hg.cut [] _ rfl hq (Nat.zero_le _)
      · rw [hr.cut p q' hcut hq' hp]
        rfl

theorem map (hr : Reads depth r bytes a) (f : α → β) :
    Reads depth (r >>= fun x => Pure.pure (f x)) bytes (f a) := by
  have h := hr.bind (g := fun x => Pure.pure (f x)) (pure (f a))
  rwa [append_nil] at h

theorem cons {depth' : Nat} {r' : Reader α} {byte : UInt8} (hr : Reads depth r bytes a)
    (hdepth : depth' ≤ depth + 1) (hnil : r' [] = .error .unexpectedEnd)
    (hcons : ∀ rest, r' (byte :: rest) = r rest) : Reads depth' r' (byte :: bytes) a where
  whole h rest := by
    rw [length_cons] at h
    rw [cons_append, hcons]
    exact hr.whole (by omega) rest
  cut p q hp hq h := by
    rcases cons_eq_append_iff.1 hp with ⟨rfl, -⟩ | ⟨front, rfl, hfront⟩
    · exact hnil
    · rw [length_cons] at h
      rw [hcons]
      exact hr.cut front q hfront hq (by omega)

end Reads

variable {n : Nat} {item : α → Bytes} {readItem : Reader α} {items : List α}

/-! ### Naturals -/

theorem natural_of_lt (h : n < 128) : natural n = [UInt8.ofNat n] := by
  rw [natural, if_pos h]

theorem natural_of_le (h : 128 ≤ n) :
    natural n = UInt8.ofNat (n % 128 + 128) :: natural (n / 128) := by
  rw [natural, if_neg (Nat.not_lt.2 h)]

theorem length_natural_pos (n : Nat) : 0 < (natural n).length := by
  rcases Nat.lt_or_ge n 128 with h | h
  · rw [natural_of_lt h]
    exact Nat.one_pos
  · rw [natural_of_le h]
    exact Nat.succ_pos _

theorem toNat_ofNat_byte (h : n < 256) : (UInt8.ofNat n).toNat = n :=
  UInt8.toNat_ofNat_of_lt' h

theorem reads_groups {limit : Nat} (hlimit : limit < 128) {size : Nat}
    (h : n < 128 ^ size * (limit + 1)) :
    Reads depth (readGroups limit (size + 1)) (natural n) n := by
  -- a group below 128 ends the natural
  have hlast {size n : Nat} (hn : n < 128) (hfits : ¬(size = 0 ∧ limit < n)) :
      Reads depth (readGroups limit (size + 1)) (natural n) n := by
    have hbyte := toNat_ofNat_byte (show n < 256 by omega)
    rw [natural_of_lt hn]
    refine (Reads.pure n).cons (Nat.le_succ _) rfl fun rest => ?_
    simp only [readGroups, hbyte]
    rw [if_pos hn, if_neg hfits]
    rfl
  induction size generalizing n with
  | zero =>
    rw [pow_zero, Nat.one_mul] at h
    exact hlast (by omega) (by omega)
  | succ size ih =>
    rcases Nat.lt_or_ge n 128 with hn | hn
    · exact hlast hn (by omega)
    · have hbyte := toNat_ofNat_byte (show n % 128 + 128 < 256 by omega)
      have hhigh : n / 128 < 128 ^ size * (limit + 1) := by
        rw [Nat.div_lt_iff_lt_mul (by omega)]
        rwa [pow_succ, Nat.mul_right_comm] at h
      have hrest := (ih hhigh).map (n % 128 + 128 * ·)
      rw [Nat.mod_add_div] at hrest
      rw [natural_of_le hn]
      refine hrest.cons (Nat.le_succ _) rfl fun rest => ?_
      simp only [readGroups, hbyte]
      rw [if_neg (by omega), Nat.add_sub_cancel]
      show _ = (readGroups limit (size + 1) rest >>= fun x => _)
      cases readGroups limit (size + 1) rest <;> rfl

theorem reads_word (n : UInt32) : Reads depth readWord (word n) n := by
  have hfits : n.toNat < 128 ^ 4 * (15 + 1) := by
    have := n.toNat_lt
    omega
  have hgroups : Reads depth (readGroups 15 5) (word n) n.toNat := reads_groups (by omega) hfits
  have h := hgroups.map UInt32.ofNat
  rwa [UInt32.ofNat_toNat] at h

theorem reads_natural (h : n < 18446744073709551616) : Reads depth readNatural (natural n) n :=
  reads_groups (by omega) (show n < 128 ^ 9 * (1 + 1) by omega)

/-! ### Scalars -/

theorem unfold_fold (n : Int) : unfold (fold n) = n := by
  unfold fold unfold
  split_ifs <;> omega

theorem fold_lt (n : Int64) : fold n.toInt < 18446744073709551616 := by
  have hlow := n.le_toInt
  have hhigh := n.toInt_lt
  unfold fold
  split_ifs <;> omega

theorem reads_integer (n : Int64) : Reads depth readInteger (integer n) n := by
  have hfold : Reads depth readNatural (integer n) (fold n.toInt) := reads_natural (fold_lt n)
  have h := hfold.map fun m => Int64.ofInt (unfold m)
  rwa [unfold_fold, Int64.ofInt_toInt] at h

theorem reads_bytesOf {count : Nat} (h : n < 256 ^ count) :
    Reads depth (readBytes count) (bytesOf count n) n := by
  induction count generalizing n with
  | zero =>
    obtain rfl : n = 0 := by simpa using h
    exact .pure 0
  | succ count ih =>
    have hbyte := toNat_ofNat_byte (show n % 256 < 256 by omega)
    have hhigh : n / 256 < 256 ^ count := by
      rw [Nat.div_lt_iff_lt_mul (by omega)]
      rwa [pow_succ] at h
    have hrest := (ih hhigh).map (n % 256 + 256 * ·)
    rw [Nat.mod_add_div] at hrest
    rw [bytesOf]
    refine hrest.cons (Nat.le_succ _) rfl fun rest => ?_
    simp only [readBytes, hbyte]
    show _ = (readBytes count rest >>= fun x => _)
    cases readBytes count rest <;> rfl

theorem reads_float (x : Binary64) : Reads depth readFloat (float x) x := by
  have hfits : x.bits.toNat < 256 ^ 8 := by
    have := x.bits.toNat_lt
    omega
  have hbits : Reads depth (readBytes 8) (float x) x.bits.toNat := reads_bytesOf hfits
  have h := hbits.map fun n => (⟨UInt64.ofNat n⟩ : Binary64)
  rwa [UInt64.ofNat_toNat] at h

theorem reads_bool (b : Bool) : Reads depth readBool (bool b) b := by
  cases b with
  | false => exact (Reads.pure false).cons (Nat.le_succ _) rfl fun _ => rfl
  | true => exact (Reads.pure true).cons (Nat.le_succ _) rfl fun _ => rfl

/-! ### Texts and lists -/

theorem toList_loop (b : ByteArray) (i : Nat) (done : List UInt8) :
    ByteArray.toList.loop b i done = done.reverse ++ b.data.toList.drop i := by
  fun_induction ByteArray.toList.loop b i done with
  | case1 i done h ih =>
    have hlt : i < b.data.toList.length := by simpa using h
    have hget : b.get! i = b.data.toList[i] := by
      rw [Array.getElem_toList]
      exact getElem!_pos b.data i h
    rw [ih, hget, reverse_cons, append_assoc, singleton_append, getElem_cons_drop]
  | case2 i done h =>
    have hle : b.data.toList.length ≤ i := by simpa using h
    rw [drop_eq_nil_of_le hle, append_nil]

theorem toList_toUTF8 (s : String) : s.toUTF8.toList = s.toUTF8.data.toList := by
  rw [ByteArray.toList, toList_loop]
  rfl

theorem fromUTF8?_toUTF8 (s : String) : String.fromUTF8? ⟨s.toUTF8.data⟩ = some s :=
  dif_pos s.isValidUTF8

theorem reads_text {s : String} (h : (text s).length < 18446744073709551616) :
    Reads depth readText (text s) s := by
  have hsize : s.toUTF8.size = s.toUTF8.toList.length := by
    rw [toList_toUTF8, Array.length_toList]
    rfl
  rw [text, length_append] at h
  refine (reads_natural (by omega)).bind ⟨fun _ rest => ?_, fun p q hp hq _ => ?_⟩
  · rw [if_neg (by rw [length_append]; omega), hsize, take_left, drop_left,
      toList_toUTF8, Array.toArray_toList, fromUTF8?_toUTF8]
  · have hlength := congrArg List.length hp
    have hpos := length_pos_of_ne_nil hq
    rw [length_append] at hlength
    exact if_pos (by omega)

theorem length_text_pos (s : String) : 0 < (text s).length := by
  rw [text, length_append]
  exact Nat.add_pos_left (length_natural_pos _) _

theorem reads_many (h : ∀ x ∈ items, Reads depth readItem (item x) x) :
    Reads depth (readMany readItem items.length) (items.flatMap item) items := by
  induction items with
  | nil => exact .pure []
  | cons x items ih =>
    obtain ⟨hx, hitems⟩ := forall_mem_cons.1 h
    exact hx.bind ((ih hitems).map (x :: ·))

theorem length_le_length_flatMap (hpos : ∀ x, 0 < (item x).length) (items : List α) :
    items.length ≤ (items.flatMap item).length := by
  induction items with
  | nil => exact le_rfl
  | cons x items ih =>
    have := hpos x
    rw [flatMap_cons, length_append, length_cons]
    omega

theorem length_item_le {x : α} (hx : x ∈ items) :
    (item x).length ≤ (items.flatMap item).length := by
  obtain ⟨front, back, rfl⟩ := append_of_mem hx
  simp only [flatMap_append, flatMap_cons, length_append]
  omega

theorem reads_list
    (hpos : ∀ x, 0 < (item x).length) (h : (list item items).length < 18446744073709551616)
    (hitem : ∀ x, (item x).length < 18446744073709551616 → Reads depth readItem (item x) x) :
    Reads depth (readList readItem) (list item items) items := by
  rw [list, length_append] at h
  have hcount := length_le_length_flatMap hpos items
  refine (reads_natural (by omega)).bind (reads_many fun x hx => hitem x ?_)
  have hle : (item x).length ≤ (items.flatMap item).length := length_item_le hx
  omega

theorem reads_option {x : Option α} (h : ∀ y, x = some y → Reads depth readItem (item y) y) :
    Reads depth (readOption readItem) (option item x) x := by
  cases x with
  | none => exact (Reads.pure none).cons (Nat.le_succ _) rfl fun _ => rfl
  | some y => exact ((h y rfl).map some).cons (Nat.le_succ _) rfl fun _ => rfl

/-! ### Instructions and lines -/

theorem ofIndex?_index (op : Opcode) : Opcode.ofIndex? op.index = some op := by
  have hmem : op ∈ Opcode.all := by
    rcases op with (_ | _) | _ | (_ | _) | (_ | _) | _ | _ | (_ | _) | (_ | _) <;> decide
  rw [Opcode.ofIndex?, Opcode.index, getElem?_eq_getElem (idxOf_lt_length_of_mem hmem),
    getElem_idxOf]

theorem index_lt (op : Opcode) : op.index < 4294967296 := by
  have hlt : op.index < Opcode.all.length :=
    (List.getElem?_eq_some_iff.1 (ofIndex?_index op)).1
  have hlength : Opcode.all.length = 44 := rfl
  omega

theorem reads_instruction (i : Instruction) : Reads depth readInstruction (instruction i) i := by
  have hindex : (UInt32.ofNat i.opcode.index).toNat = i.opcode.index :=
    UInt32.toNat_ofNat_of_lt' (index_lt i.opcode)
  have hnumber : Reads depth readWord (word (.ofNat i.opcode.index)) (.ofNat i.opcode.index) :=
    reads_word _
  rw [word, hindex] at hnumber
  have hopcode : Reads depth readOpcode (natural i.opcode.index) i.opcode := by
    rw [← append_nil (natural i.opcode.index)]
    refine hnumber.bind ?_
    rw [hindex, ofIndex?_index]
    exact .pure i.opcode
  exact hopcode.bind ((reads_word i.arg).map (Instruction.mk i.opcode))

theorem length_instruction_pos (i : Instruction) : 0 < (instruction i).length := by
  rw [instruction, length_append]
  exact Nat.add_pos_left (length_natural_pos _) _

theorem reads_entry (e : UInt32 × UInt32) : Reads depth readEntry (entry e) e :=
  (reads_word e.1).bind ((reads_word e.2).map fun line => (e.1, line))

theorem length_entry_pos (e : UInt32 × UInt32) : 0 < (entry e).length := by
  rw [entry, length_append]
  exact Nat.add_pos_left (length_natural_pos _) _

/-! ### Constants and units -/

theorem reads_outline {u : Outline} {pool : List Const} {consts : Bytes} {item : Reader Const}
    (h : (outline u consts).length < 18446744073709551616)
    (hconsts : Reads depth (readList item) consts pool) :
    Reads depth (readUnit item) (outline u consts) ⟨u, pool⟩ := by
  simp only [outline, length_append] at h
  have hdoc : Reads depth (readOption readText) (option text u.docString) u.docString := by
    refine reads_option fun s hs => reads_text ?_
    rw [hs, option, length_cons] at h
    omega
  have htexts (xs : List String) (hxs : (list text xs).length < 18446744073709551616) :
      Reads depth (readList readText) (list text xs) xs :=
    reads_list length_text_pos hxs fun _ hs => reads_text hs
  have hcode : Reads depth (readList readInstruction) (list instruction u.code) u.code :=
    reads_list length_instruction_pos (by omega) fun i _ => reads_instruction i
  have hlines : Reads depth (readList readEntry) (list entry u.lines) u.lines :=
    reads_list length_entry_pos (by omega) fun e _ => reads_entry e
  simp only [outline, append_assoc]
  exact (reads_word u.argCount).bind <| (reads_word u.numLocals).bind <|
    (reads_word u.stackSize).bind <| (reads_word u.flags.bits).bind <| hcode.bind <|
    hconsts.bind <| (htexts u.names (by omega)).bind <| (htexts u.varNames (by omega)).bind <|
    (htexts u.freeVars (by omega)).bind <| (reads_text (by omega)).bind <|
    (reads_text (by omega)).bind <| (reads_word u.firstLine).bind <| hlines.bind <|
    hdoc.map fun docString => CodeOf.mk { u with docString } pool

theorem consts_eq_flatMap (cs : List Const) : consts cs = cs.flatMap const := by
  induction cs with
  | nil => rw [consts, flatMap_nil]
  | cons c cs ih => rw [consts, ih, flatMap_cons]

theorem length_const_pos (c : Const) : 0 < (const c).length := by
  cases c with
  | code unit =>
    obtain ⟨u, pool⟩ := unit
    rw [const]
    exact Nat.succ_pos _
  | _ =>
    rw [const]
    exact Nat.succ_pos _

theorem reads_kind {kind : UInt8} {r : UInt32 → Reader Const} {c : Const} (hkind : kind.toNat < 128)
    (hr : Reads depth (r (UInt32.ofNat kind.toNat)) bytes c) :
    Reads (depth + 1) (readWord >>= r) (kind :: bytes) c := by
  refine hr.cons le_rfl rfl fun rest => ?_
  show (readWord (kind :: rest) >>= fun x => r x.1 x.2) = _
  have hword : readWord (kind :: rest) = .ok (UInt32.ofNat kind.toNat, rest) := by
    show (readGroups 15 5 (kind :: rest) >>= fun x => _) = _
    rw [readGroups, if_pos hkind, if_neg (by omega)]
    rfl
  rw [hword]
  rfl

theorem reads_pool {cs : List Const}
    (h : (natural cs.length ++ consts cs).length < 18446744073709551616)
    (hcs : (consts cs).length < 18446744073709551616 →
      Reads depth (readMany (readConst depth) cs.length) (consts cs) cs) :
    Reads depth (readList (readConst depth)) (natural cs.length ++ consts cs) cs := by
  have hcount : cs.length ≤ (consts cs).length := by
    rw [consts_eq_flatMap]
    exact length_le_length_flatMap length_const_pos cs
  rw [length_append] at h
  exact (reads_natural (by omega)).bind (hcs (by omega))

mutual

theorem reads_const : ∀ (depth : Nat) (c : Const), (const c).length < 18446744073709551616 →
    Reads depth (readConst depth) (const c) c
  | 0, c, _ => by
    have hpos := length_const_pos c
    refine ⟨fun h => by omega, fun p q _ _ _ => rfl⟩
  | depth + 1, .none, _ => by
    rw [const]
    exact reads_kind (by decide) (.pure _)
  | depth + 1, .bool b, _ => by
    rw [const]
    exact reads_kind (by decide) ((reads_bool b).map _)
  | depth + 1, .int n, _ => by
    rw [const]
    exact reads_kind (by decide) ((reads_integer n).map _)
  | depth + 1, .float x, _ => by
    rw [const]
    exact reads_kind (by decide) ((reads_float x).map _)
  | depth + 1, .str s, h => by
    rw [const] at h ⊢
    rw [length_cons] at h
    exact reads_kind (by decide) ((reads_text (by omega)).map _)
  | depth + 1, .tuple items, h => by
    rw [const] at h ⊢
    simp only [cons_append, length_cons] at h ⊢
    exact reads_kind (by decide) ((reads_pool (by omega) (reads_consts depth items)).map _)
  | depth + 1, .code ⟨u, pool⟩, h => by
    rw [const] at h ⊢
    rw [length_cons] at h
    have hpool : (natural pool.length ++ consts pool).length < 18446744073709551616 := by
      simp only [outline, length_append] at h ⊢
      omega
    exact reads_kind (by decide) ((reads_outline (by omega)
      (reads_pool hpool (reads_consts depth pool))).map _)

theorem reads_consts (depth : Nat) : ∀ cs : List Const,
    (consts cs).length < 18446744073709551616 →
    Reads depth (readMany (readConst depth) cs.length) (consts cs) cs
  | [], _ => .pure []
  | c :: cs, h => by
    rw [consts] at h ⊢
    rw [length_append] at h
    exact (reads_const depth c (by omega)).bind ((reads_consts depth cs (by omega)).map (c :: ·))

end

end Binary

/-- What is written for a unit is read back as the unit, whatever follows, and every proper part of
the front of it is refused for lacking the end. -/
theorem toBytes_self_delimiting (c : Code) (h : c.toBytes.length < 18446744073709551616) :
    (∀ rest, CodeOf.ofBytes (c.toBytes ++ rest) = .ok c) ∧
      ∀ p, p <+: c.toBytes → p ≠ c.toBytes → CodeOf.ofBytes p = .error .unexpectedEnd := by
  have hpool : (Binary.natural c.consts.length ++ Binary.consts c.consts).length <
      18446744073709551616 := by
    simp only [CodeOf.toBytes, Binary.outline, length_append] at h ⊢
    omega
  have hreads (depth : Nat) :
      Binary.Reads depth (Binary.readUnit (Binary.readConst depth)) c.toBytes c :=
    Binary.reads_outline h (Binary.reads_pool hpool (Binary.reads_consts depth c.consts))
  refine ⟨fun rest => ?_, fun p hp hne => ?_⟩
  · have hwhole := (hreads (c.toBytes ++ rest).length).whole
      (by rw [length_append]; omega) rest
    show Prod.fst <$> Binary.readUnit _ (c.toBytes ++ rest) = _
    rw [hwhole]
    rfl
  · obtain ⟨q, hq⟩ := hp
    have hcut := (hreads p.length).cut p q hq.symm
      (fun hnil => hne (by rw [← hq, hnil, append_nil])) le_rfl
    show Prod.fst <$> Binary.readUnit _ p = _
    rw [hcut]
    rfl

def nestedUnit : Code :=
  let inner : Outline :=
    { argCount := 1, numLocals := 1, stackSize := 128, flags := .newLocals,
      code := [⟨.name .loadFast, 0⟩, ⟨.bare .returnValue, 0⟩], varNames := ["x"],
      fileName := "f", name := "inner", firstLine := 300, lines := [(0, 300)],
      docString := some "é" }
  { inner with
    name := "outer"
    docString := none
    consts := [.int (-9223372036854775808),
      .tuple [.float ⟨0x8000000000000000⟩, .code ⟨inner, []⟩]] }

theorem nestedUnit_self_delimiting :
    nestedUnit.toBytes.length < 18446744073709551616 ∧
      CodeOf.ofBytes (nestedUnit.toBytes ++ [6]) = .ok nestedUnit ∧
      CodeOf.ofBytes (nestedUnit.toBytes.take 40) = .error .unexpectedEnd := by
  have hlength : nestedUnit.toBytes.length = 88 := by cbv
  have hshort : nestedUnit.toBytes.length < 18446744073709551616 := by omega
  obtain ⟨hwhole, hcut⟩ := toBytes_self_delimiting nestedUnit hshort
  have hprefix : nestedUnit.toBytes.take 40 <+: nestedUnit.toBytes := take_prefix 40 _
  refine ⟨hshort, hwhole [6], hcut _ hprefix fun heq => ?_⟩
  have htaken := congrArg List.length heq
  rw [length_take, hlength] at htaken
  omega

end Bytewright
