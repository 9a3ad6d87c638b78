import Bytewright.Proofs.Link.Closed

/-!
# Units with more parameters

A unit is instrumented by putting instructions among those that are there, and by giving it more
parameters in front of the others.
-/

namespace Bytewright

open List

/-- A unit, the instrumented unit, and where its instructions have moved to, up to a limit. -/
structure Shift (exact : Prop) where
  plain : Code
  shifted : Code
  place : Nat → Nat
  limit : Nat
  slots : List String
  extra : List Value
  limit_le : limit ≤ plain.code.length
  place_le : ∀ i ≤ limit, place i ≤ shifted.code.length
  place_eq : exact → ∀ i ≤ limit, place i = i
  varNames_eq : shifted.varNames = slots ++ plain.varNames
  nodup_varNames : shifted.varNames.Nodup
  length_extra : extra.length = slots.length
  name_eq : plain.name = shifted.name
  fileName_eq : plain.fileName = shifted.fileName
  lineFor_eq : ∀ i ≤ limit, plain.lineFor (i - 1) = shifted.lineFor (place i - 1)

namespace Shift

variable {exact : Prop} {S : Shift exact} {ids : Pairing} {hidden : ScopeRef → Bindings}
  {f g : Frame}

/-! ### Frames -/

/-- The frames of the two units are at the same place, with the new parameters in front. -/
structure Base (S : Shift exact) (ids : Pairing) (f g : Frame) : Prop where
  plain : f.code = S.plain
  shifted : g.code = S.shifted
  ip_le : f.ip ≤ S.limit
  ip_eq : g.ip = S.place f.ip
  names_eq : f.names = g.names
  fast : ∃ rest, g.fast = S.extra.map some ++ rest ∧
    LinkedSlots (.whole (fun _ => True) exact) ids f.fast rest
  closure : LinkedAll (.whole (fun _ => True) exact) ids f.closure g.closure

theorem entry_eq (S : Shift exact) (hf : f.code = S.plain) (hg : g.code = S.shifted) {i : Nat}
    (hi : i ≤ S.limit) : f.entry (i - 1) = g.entry (S.place i - 1) := by
  rw [Frame.entry, Frame.entry, hf, hg, S.lineFor_eq i hi, S.fileName_eq, S.name_eq]

def alignment (S : Shift exact) : Alignment (.whole (fun _ => True) exact) where
  base := S.Base
  target i j := i ≤ S.limit ∧ j = S.place i
  exact := exact
  mono hle hfg :=
    { hfg with
      fast := by
        obtain ⟨rest, hrest, hfast⟩ := hfg.fast
        exact ⟨rest, hrest, hfast.mono hle⟩
      closure := hfg.closure.mono hle }
  jump hij hfg := { hfg with ip_le := hij.1, ip_eq := hij.2 }
  reach hij hfg := by
    refine iff_of_true (hfg.plain ▸ hij.1.trans S.limit_le) ?_
    rw [hfg.shifted, hij.2]
    exact S.place_le _ hij.1
  ip_eq hexact hfg := by rw [hfg.ip_eq, S.place_eq hexact _ hfg.ip_le]
  entry hfg := by
    rw [hfg.ip_eq]
    exact S.entry_eq hfg.plain hfg.shifted hfg.ip_le

/-! ### Twins -/

/-- Fast locals are further along, jumps lead where the instructions have moved to, and all other
arguments mean the same. -/
structure Twin (S : Shift exact) (index index' : Nat) (i i' : Instruction) : Prop where
  opcode_eq : i'.opcode = i.opcode
  means : match i.opcode with
    | .loadConst =>
      ∃ k, S.plain.consts[i.arg.toNat]? = some k ∧ S.shifted.consts[i'.arg.toNat]? = some k
    | .name o => ∃ x, (S.plain.pool o.pool)[i.arg.toNat]? = some x ∧
      (S.shifted.pool o.pool)[i'.arg.toNat]? = some x ∧ (o.pool = .free → i'.arg = i.arg)
    | .jump _ => ∃ target ≤ S.limit, i.target index = some target ∧
      i'.target index' = some (S.place target)
    | _ => i'.arg = i.arg

theorem local_eq (S : Shift exact) {x : String} {i j : Nat}
    (hi : S.plain.varNames[i]? = some x) (hj : S.shifted.varNames[j]? = some x) :
    j = S.extra.length + i := by
  have hnext : S.shifted.varNames[S.extra.length + i]? = some x := by
    rw [S.varNames_eq, S.length_extra, getElem?_append_right (Nat.le_add_right _ _),
      Nat.add_sub_cancel_left, hi]
  have hlt := (List.getElem?_eq_some_iff.1 hj).1
  exact (getElem?_inj hlt S.nodup_varNames).1 (hj.trans hnext.symm)

theorem getElem?_extra_append (S : Shift exact) (rest : List (Option Value)) (i : Nat) :
    (S.extra.map some ++ rest)[S.extra.length + i]? = rest[i]? := by
  rw [getElem?_append_right (by simp), length_map, Nat.add_sub_cancel_left]

theorem set_extra_append (S : Shift exact) (rest : List (Option Value)) (i : Nat)
    (v : Option Value) :
    (S.extra.map some ++ rest).set (S.extra.length + i) v = S.extra.map some ++ rest.set i v := by
  rw [set_append_right _ _ (by simp), length_map, Nat.add_sub_cancel_left]

theorem opens (S : Shift exact) {o : NameOp} {x : String} {i j : UInt32}
    (hi : (S.plain.pool o.pool)[i.toNat]? = some x)
    (hj : (S.shifted.pool o.pool)[j.toNat]? = some x) (hfree : o.pool = .free → j = i) :
    S.alignment.Opens o i.toNat j.toNat := by
  intro ids f g hfg
  have hlocal (ho : o.pool = .locals) : j.toNat = S.extra.length + i.toNat := by
    rw [ho] at hi hj
    exact S.local_eq hi hj
  obtain ⟨rest, hrest, hfast⟩ := hfg.fast
  cases o with
  | loadFast =>
    rw [hlocal rfl, hrest, S.getElem?_extra_append]
    exact getElem?_rel hfast _
  | storeFast =>
    intro v w hv
    refine { hfg with fast := ⟨rest.set i.toNat (some w), ?_, set_rel hfast _ (.some hv)⟩ }
    rw [hlocal rfl, hrest, S.set_extra_append]
  | deleteFast =>
    refine ⟨?_, { hfg with fast := ⟨rest.set i.toNat none, ?_, set_rel hfast _ .none⟩ }⟩
    · rw [hlocal rfl, hrest, S.getElem?_extra_append]
      exact getElem?_rel hfast _
    · rw [hlocal rfl, hrest, S.set_extra_append]
  | loadName | storeName | deleteName => exact ⟨hfg.names_eq, trivial⟩
  | loadDeref =>
    rw [hfree rfl]
    exact getElem?_rel hfg.closure _
  | _ => trivial

theorem Twin.matches {n n' : Nat} (hn : exact → n = n') {i i' : Instruction}
    (hi : S.Twin n n' i i') : S.alignment.Matches i i' n n' := by
  obtain ⟨hopcode, hmeans⟩ := hi
  refine ⟨hopcode.symm, hn, ?_⟩
  obtain ⟨opcode, arg⟩ := i
  obtain ⟨opcode', arg'⟩ := i'
  cases hopcode
  cases opcode with
  | loadConst =>
    obtain ⟨k, hk, hk'⟩ := hmeans
    intro ids f g hfg
    rw [hfg.plain, hfg.shifted]
    refine ⟨hk.trans hk'.symm, fun _ hnone => ?_⟩
    rw [hk] at hnone
    cases hnone
  | name o =>
    obtain ⟨x, hx, hx', hfree⟩ := hmeans
    refine ⟨fun {ids f g} hfg => ?_, S.opens hx hx' hfree⟩
    rw [hfg.plain, hfg.shifted]
    refine ⟨hx.trans hx'.symm, fun _ hnone => ?_⟩
    rw [hx] at hnone
    cases hnone
  | jump o =>
    obtain ⟨target, hle, htarget, htarget'⟩ := hmeans
    show Option.Rel _ (Instruction.target ⟨.jump o, arg⟩ n) (Instruction.target ⟨.jump o, arg'⟩ n')
    rw [htarget, htarget']
    exact .some ⟨hle, rfl⟩
  | count o =>
    have harg : arg = arg' := hmeans.symm
    cases o with
    | makeFunction => exact ⟨harg, trivial⟩
    | _ => exact harg
  | bare | binaryOp | compareOp | call => exact hmeans.symm

/-! ### One instruction -/

theorem proceed_linked (S : Shift exact) (hfg : f.Aligned S.alignment ids g) {m m' : Memory}
    (hm : m.Linked (.whole (fun _ => True) exact) hidden ids m') {i i' : Instruction} {n : Nat}
    (hi : S.plain.code[f.ip]? = some i) (hi' : S.shifted.code[n]? = some i')
    (hlimit : f.ip + 1 ≤ S.limit) (hnext : S.place (f.ip + 1) = n + 1)
    (htwin : S.Twin f.ip n i i') (steps steps' : Nat) (hsteps : exact → steps = steps') :
    Progress.Linked S.alignment hidden ids (Run.proceed ⟨f, [], steps, m⟩)
      (Run.proceed ⟨{ g with ip := n }, [], steps', m'⟩) := by
  have hplain : f.code = S.plain := hfg.base.plain
  have hshifted : g.code = S.shifted := hfg.base.shifted
  have hsame (hexact : exact) : f.ip = n := by
    have heq := S.place_eq hexact _ hlimit
    omega
  have hahead : Frame.Aligned S.alignment ids { f with ip := f.ip + 1 } { g with ip := n + 1 } :=
    { hfg with base := S.alignment.jump ⟨hlimit, hnext.symm⟩ hfg.base }
  have hexecute := Exec.simulates_execute (htwin.matches hsame)
    ⟨{ f with ip := f.ip + 1 }, m⟩ ⟨_, m'⟩ ⟨hahead, hm⟩
  have hname : f.code.name = g.code.name := by rw [hplain, hshifted, S.name_eq]
  refine Run.proceed_linked_of_execute (B := S.alignment) id hsteps (hplain ▸ hi)
    (hshifted ▸ hi') hexecute (congrArg (fun x => [x]) hname)
    (fun {_ f' g'} hfg' => ?_) fun _ hfg' => .bottom hfg'
  have hentry := S.entry_eq hfg'.base.plain hfg'.base.shifted hlimit
  rwa [hnext] at hentry

end Shift

end Bytewright
