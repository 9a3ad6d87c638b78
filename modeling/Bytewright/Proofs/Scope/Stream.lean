import Bytewright.Proofs.Scope.Resolve
import Bytewright.Proofs.Scope.Run

/-!
# Streams with resolved names

Where no jump of a stream skips a store, the places at which a name is bound can be read off the
stream: the name is a parameter, or a store of it stands before the place.
-/

namespace Bytewright

open Assemble OfCode List

/-! ### Straight streams -/

/-- Its name, if any, is loaded or stored by name, and no block moves. -/
def Op.isPlain : Op → Bool
  | .name o _ => o == .loadName || o == .storeName || o == .loadAttr || o == .storeAttr
  | .bare o => !(Opcode.bare o).movesBlock
  | .jump o _ => !(Opcode.jump o).movesBlock
  | _ => true

namespace Scope

/-- No jump skips a store. -/
structure Straight (ops : Stream) : Prop where
  plain : ∀ op ∈ ops, op.isPlain = true
  jumps : ∀ {n o l place x}, (reals ops)[n]? = some (.jump o l) → position? l 0 ops = some place →
    x ∈ stored ((reals ops).take place) → x ∈ stored ((reals ops).take n)

/-- No name that is not available is loaded before it is stored. -/
def StoredFirst (available : List String) (ops : Stream) : Prop :=
  ∀ x ∈ stored ops, x ∉ available →
    ∃ front back, ops = front ++ .name .storeName x :: back ∧ .name .loadName x ∉ front

/-- The name is a parameter, or it is stored in front of the place. -/
def Settled (available : List String) (ops : Stream) (n : Nat) (x : String) : Prop :=
  x ∈ required available [] ops ∨ x ∈ stored ((reals ops).take n)

/-- The name is a parameter, or it is stored somewhere. -/
def Owned (available : List String) (ops : Stream) (x : String) : Prop :=
  x ∈ required available [] ops ∨ x ∈ stored ops

variable {available : List String} {ops : Stream} {x : String} {n : Nat}

theorem StoredFirst.mem_stored {front back : Stream} (h : StoredFirst available ops)
    (hops : ops = front ++ .name .loadName x :: back) (hx : x ∈ stored ops)
    (havailable : x ∉ available) : x ∈ stored front := by
  obtain ⟨first, rest, hsplit, hload⟩ := h x hx havailable
  rw [hops] at hsplit
  rcases append_eq_append_iff.1 hsplit with ⟨mid, rfl, hmid⟩ | ⟨mid, rfl, hmid⟩
  · cases mid with
    | nil => cases hmid
    | cons op mid =>
      cases hmid
      exact (hload (mem_append_right _ (mem_cons_self ..))).elim
  · cases mid with
    | nil => cases hmid
    | cons op mid =>
      cases hmid
      exact Scope.mem_stored.2 (mem_append_right _ (mem_cons_self ..))

theorem settled_of_load (hfirst : StoredFirst available ops)
    (h : (reals ops)[n]? = some (.name .loadName x)) (hx : x ∈ available ∨ x ∈ stored ops) :
    Settled available ops n x := by
  obtain ⟨front, back, hsplit, htake⟩ := exists_split h
  rw [Settled, htake, stored_reals]
  by_cases havailable : x ∈ available
  · rcases mem_required_or_stored havailable [] front back with h | h | h
    · cases h
    · exact .inl (hsplit ▸ h)
    · exact .inr h
  · exact .inr (hfirst.mem_stored hsplit (hx.resolve_left havailable) havailable)

theorem Straight.settled_of_jump (h : Straight ops) {place : Nat} {o : JumpOp} {l : Label}
    (hjump : (reals ops)[n]? = some (.jump o l)) (hplace : position? l 0 ops = some place)
    (hx : Settled available ops place x) : Settled available ops n x :=
  hx.imp id (h.jumps hjump hplace)

theorem settled_or_store {op : Op}
    (h : (reals ops)[n]? = some op) (hx : Settled available ops (n + 1) x) :
    Settled available ops n x ∨ op = .name .storeName x := by
  rcases hx with hx | hx
  · exact .inl (.inl hx)
  · rw [take_add_one, h, stored_append, mem_append] at hx
    rcases hx with hx | hx
    · exact .inl (.inr hx)
    · exact .inr (mem_singleton.1 (mem_stored.1 hx)).symm

theorem not_owned (h : x ∉ available) (h' : x ∉ stored ops) : ¬Owned available ops x := by
  rintro (hx | hx)
  · exact h ((nodup_required available [] ops).2 x hx).1
  · exact h' hx

end Scope

/-! ### The two units of a stream -/

def Header.function (name : String) (firstLine : UInt32) (args : List String) : Header :=
  { name, args, newLocals := true, firstLine }

theorem Assembled.exists_of_laced {fileName : String} {ops ops' : Stream} {header : Header}
    {c : Code} {code : List Instruction} {last : Pools} {place : Nat → Nat}
    (h : Assembled fileName ops header c) (header' : Header) (slack : Nat)
    (hlabels : checkLabels ops' = .ok ())
    (hargs : header'.args.Nodup)
    (hencode : encode ops' 0 { varNames := header'.args, freeVars := header'.freeVars } ops' =
      .ok (code, last)) (hlaced : Depth.Laced place slack 0 c.code code) (hstart : place 0 = 0)
    (hroom : c.stackSize.toNat + slack < 4294967296)
    (hmax : ∀ max, header'.maxStackSize = some max → c.stackSize.toNat + slack ≤ max.toNat) :
    ∃ t, Assembled fileName ops' header' t ∧ t.code = code ∧ t.pools = last ∧
      c.stackSize.toNat ≤ t.stackSize.toNat ∧ t.stackSize.toNat ≤ c.stackSize.toNat + slack := by
  obtain ⟨seen, deepest, hsurvey, hdeepest, hstack⟩ := Depth.checkFrom_eq_ok_iff.1 h.check_eq
  obtain ⟨seen', deepest', hsurvey', hle, hle'⟩ :=
    hlaced.survey_eq_ok hstart (Int.natCast_nonneg slack) hsurvey
  have hnonneg := (Depth.survey_closed hsurvey).1.depth_le (Depth.survey_closed hsurvey).2
  simp only at hnonneg
  rw [hstack, Depth.toNat_ofNat_deepest hdeepest] at hroom hmax ⊢
  have hdeepest' : deepest' < 4294967296 := by omega
  have hsize : stackSize code header'.maxStackSize = .ok (UInt32.ofNat deepest'.toNat) := by
    rw [stackSize, Depth.check, Depth.checkFrom_eq_ok_iff.2 ⟨_, _, hsurvey', hdeepest', rfl⟩]
    cases hdeclared : header'.maxStackSize with
    | none => rfl
    | some max =>
      have := hmax max hdeclared
      refine if_neg ?_
      rw [UInt32.lt_iff_toNat_lt, Depth.toNat_ofNat_deepest hdeepest']
      omega
  refine ⟨{ argCount := UInt32.ofNat (argCount header')
            numLocals := UInt32.ofNat last.varNames.length
            stackSize := UInt32.ofNat deepest'.toNat
            flags := flags ops' header' last.freeVars
            code
            consts := last.consts
            names := last.names
            varNames := last.varNames
            freeVars := last.freeVars
            fileName
            name := header'.name
            firstLine := header'.firstLine
            lines := lineTable 0 [] ops'
            docString := header'.docString },
    ⟨hlabels, hargs, hencode, hsize, rfl, rfl, rfl, rfl, rfl, rfl, rfl, rfl⟩, rfl, rfl, ?_⟩
  rw [Depth.toNat_ofNat_deepest hdeepest']
  omega

namespace Scope

variable {fileName name : String} {line : UInt32} {ops : Stream} {available : List String}
  {c d : Code} {x : String}

theorem exists_assembled_resolve
    (h : Assembled fileName ops (.function name line []) c) (available : List String) :
    ∃ d, Assembled fileName (resolveNames available ops).2
        (.function name line (resolveNames available ops).1) d ∧
      d.consts = c.consts ∧ List.Forall₂ Interchangeable c.code d.code := by
  obtain ⟨code, last, hencode, hconsts, hcode⟩ :=
    exists_encode_resolve available (stored ops) h.encode_eq
      (show Pools.consts { varNames := (resolveNames available ops).1 } = [] from rfl)
  have hlabels : checkLabels (resolveNames available ops).2 = .ok () := by
    rw [checkLabels_eq_ok_iff, resolveNames, marks_map_resolve, references_map_resolve]
    exact checkLabels_eq_ok_iff.1 h.labels
  obtain ⟨d, hd, rfl, rfl, -⟩ := h.exists_of_laced
    (.function name line (resolveNames available ops).1) 0 hlabels
    (nodup_required available [] ops).1
    hencode (Depth.laced_id hcode) rfl c.stackSize.toNat_lt fun max hmax => by cases hmax
  exact ⟨d, hd, hconsts, hcode⟩

theorem eq_of_isPlain {o : NameOp} (h : (Op.name o x).isPlain = true) :
    o = .loadName ∨ o = .storeName ∨ o = .loadAttr ∨ o = .storeAttr := by
  simpa [Op.isPlain, or_assoc] using h

theorem resolve_loadName_of (h : x ∈ available ∨ x ∈ stored ops) :
    resolve available (stored ops) (.name .loadName x) = .name .loadFast x := by
  rw [resolve, if_pos (by simpa using h)]

theorem resolve_loadName_of_not (h : ¬(x ∈ available ∨ x ∈ stored ops)) :
    resolve available (stored ops) (.name .loadName x) = .name .loadGlobal x := by
  rw [resolve, if_neg (by simpa using h)]

theorem mem_required_append_stored (h : .name .loadName x ∈ ops)
    (hx : x ∈ available ∨ x ∈ stored ops) : x ∈ required available [] ops ++ stored ops := by
  rcases hx with hx | hx
  · obtain ⟨front, back, rfl⟩ := append_of_mem h
    rcases mem_required_or_stored hx [] front back with h | h | h
    · cases h
    · exact mem_append_left _ h
    · rw [stored_append]
      exact mem_append_right _ (mem_append_left _ h)
  · exact mem_append_right _ hx

section Resolved

variable
  (hd : Assembled fileName (resolveNames available ops).2 (.function name line (resolveNames
    available ops).1) d)
include hd

theorem mem_varNames (hplain : ∀ op ∈ ops, op.isPlain = true) (hx : x ∈ d.varNames) :
    x ∈ required available [] ops ++ stored ops := by
  have hx' : x ∈ d.pools.get .locals := hx
  rcases mem_pool_of_encode hd.encode_eq hx' with hx | ⟨o, ho, hx⟩
  · exact mem_append_left _ hx
  · obtain ⟨op, hop, hresolve⟩ := mem_map.1 hx
    obtain ⟨o', rfl⟩ : ∃ o', op = .name o' x := by
      rcases resolve_cases available (stored ops) op with heq | ⟨a, b, y, rfl, heq, -⟩
      · exact ⟨o, heq.symm.trans hresolve⟩
      · rw [heq] at hresolve
        cases hresolve
        exact ⟨a, rfl⟩
    rcases eq_of_isPlain (hplain _ hop) with rfl | rfl | rfl | rfl
    · by_cases hx : x ∈ available ∨ x ∈ stored ops
      · exact mem_required_append_stored hop hx
      · rw [resolve_loadName_of_not hx] at hresolve
        cases hresolve
        cases ho
    · exact mem_append_right _ (mem_stored.2 hop)
    · cases hresolve
      cases ho
    · cases hresolve
      cases ho

theorem length_pools_lt (hsize : size ops < 4294967296) (hplain : ∀ op ∈ ops, op.isPlain = true) :
    d.names.length < 4294967296 ∧ d.varNames.length < 4294967296 := by
  constructor
  · have hle : d.names.length ≤ 0 + size (resolveNames available ops).2 :=
      (length_le_of_encode hd.encode_eq).2 .names
    rw [resolveNames, ← length_reals, reals_map_resolve, length_map, length_reals] at hle
    omega
  · have hsub : d.varNames ⊆ required available [] ops ++ stored ops :=
      fun _ hx => mem_varNames hd hplain hx
    have hle := (hd.nodup_varNames.subperm hsub).length_le
    have := length_required_add_stored_le available [] ops
    rw [length_append] at hle
    omega

theorem twins_of_assembled (h : Assembled fileName ops (.function name line []) c)
    (hcode : List.Forall₂ Interchangeable c.code d.code) (hsize : size ops < 4294967296)
    (hplain : ∀ op ∈ ops, op.isPlain = true) (hfirst : StoredFirst available ops) {ip : Nat}
    {i i' : Instruction} (hi : c.code[ip]? = some i) (hi' : d.code[ip]? = some i') :
    Counterparts c d (Settled available ops ip) (Owned available ops) i i' := by
  have hnames : c.names.length < 4294967296 := by
    have hle : c.names.length ≤ 0 + size ops := (length_le_of_encode h.encode_eq).2 .names
    omega
  obtain ⟨hnames', hlocals'⟩ := length_pools_lt hd hsize hplain
  obtain ⟨op, q, q', hop, hopcode, harg, hlast⟩ := getElem?_of_encode h.encode_eq hi
  obtain ⟨op', p, p', hop', hopcode', harg', hlast'⟩ := getElem?_of_encode hd.encode_eq hi'
  obtain rfl : resolve available (stored ops) op = op' := by
    rw [resolveNames, reals_map_resolve, getElem?_map, hop] at hop'
    exact Option.some.inj hop'
  have hmem : op ∈ ops := mem_of_mem_filter (mem_of_getElem? hop)
  have hblock : op.isPlain = true := hplain op hmem
  obtain ⟨opcode, a⟩ := i
  obtain ⟨opcode', a'⟩ := i'
  have hsame : (∀ o, opcode ≠ .name o) → opcode.movesBlock = false →
      Counterparts c d (Settled available ops ip) (Owned available ops) ⟨opcode, a⟩
        ⟨opcode', a'⟩ := by
    intro hname hmoves
    obtain ⟨j, hj, hij⟩ := Depth.exists_interchangeable hcode hi
    rw [hi'] at hj
    cases hj
    rcases hij with heq | ⟨o, _, ho, -⟩
    · rw [heq]
      exact .same hname hmoves
    · exact (hname o ho).elim
  cases op with
  | line | mark => cases hopcode
  | name o x =>
    cases hopcode
    rcases eq_of_isPlain hblock with rfl | rfl | rfl | rfl
    · have hx : c.names[a.toNat]? = some x := name_of_argument harg hlast hnames
      by_cases hlocal : x ∈ available ∨ x ∈ stored ops
      · rw [resolve_loadName_of hlocal] at hopcode' harg'
        cases hopcode'
        exact .load hx (name_of_argument harg' hlast' hlocals') (settled_of_load hfirst hop hlocal)
      · rw [resolve_loadName_of_not hlocal] at hopcode' harg'
        cases hopcode'
        exact .global hx (name_of_argument harg' hlast' hnames')
          (not_owned (fun h => hlocal (.inl h)) fun h => hlocal (.inr h))
    · cases hopcode'
      exact .store (name_of_argument harg hlast hnames) (name_of_argument harg' hlast' hlocals')
        (.inr (mem_stored.2 hmem))
    · cases hopcode'
      exact .attr (.inl rfl) (name_of_argument harg hlast hnames)
        (name_of_argument harg' hlast' hnames')
    · cases hopcode'
      exact .attr (.inr rfl) (name_of_argument harg hlast hnames)
        (name_of_argument harg' hlast' hnames')
  | bare o | jump o l =>
    cases hopcode
    exact hsame (by simp) (by simpa [Op.isPlain] using hblock)
  | const | count | arith | compare | call =>
    cases hopcode
    exact hsame (by simp) rfl

theorem resolution_of_assembled (h : Assembled fileName ops (.function name line []) c)
    (hconsts : d.consts = c.consts) (hcode : List.Forall₂ Interchangeable c.code d.code)
    (hsize : size ops < 4294967296) (hstraight : Straight ops)
    (hfirst : StoredFirst available ops) :
    Resolution c d (Settled available ops) (Owned available ops) where
  entry_eq index := by
    rw [CodeOf.lineFor, CodeOf.lineFor, h.lines_eq, hd.lines_eq, h.firstLine_eq, hd.firstLine_eq,
      h.name_eq, hd.name_eq, h.fileName_eq, hd.fileName_eq, resolveNames, lineTable_map_resolve]
    rfl
  consts_eq := hconsts.symm
  length_eq := hcode.length_eq
  nodup := hd.nodup_varNames
  twins := twins_of_assembled hd h hcode hsize hstraight.plain hfirst
  next {ip i x} hi hx := by
    obtain ⟨op, q, q', hop, hopcode, harg, hlast⟩ := getElem?_of_encode h.encode_eq hi
    rcases settled_or_store hop hx with hx | rfl
    · exact .inl hx
    · have hle : c.names.length ≤ 0 + size ops := (length_le_of_encode h.encode_eq).2 .names
      obtain ⟨opcode, a⟩ := i
      cases hopcode
      exact .inr ⟨a, rfl, name_of_argument harg hlast (show c.names.length < _ by omega)⟩
  jump {ip i target x} hi htarget hx := by
    obtain ⟨op, q, q', hop, hopcode, harg, -⟩ := getElem?_of_encode h.encode_eq hi
    obtain ⟨opcode, a⟩ := i
    cases op with
    | jump o l =>
      cases hopcode
      rw [Nat.zero_add] at harg
      obtain ⟨place, hplace, htarget'⟩ := exists_position?_of_argument hsize harg
      rw [htarget] at htarget'
      cases htarget'
      exact hstraight.settled_of_jump hop hplace hx
    | line | mark => cases hopcode
    | _ =>
      cases hopcode
      cases htarget

end Resolved

end Scope

end Bytewright
