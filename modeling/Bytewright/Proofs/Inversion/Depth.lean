import Bytewright.Proofs.Inversion.Stream
import Bytewright.Proofs.Scope.Stream

/-!
# The depth of inverted code

What takes the place of a load takes the same values off the stack and leaves one, and on the way
the stack is deeper by at most four values.
-/

namespace Bytewright

open Assemble Depth List OfCode

/-! ### Operations that follow one another -/

variable {opcode : Opcode}

theorem effect_of_argument {whole : Stream} {index : Nat} {p p' : Pools} {op : Op} {arg : UInt32}
    (hop : op.opcode = some opcode) (h : argument whole index p op = .ok (arg, p')) :
    opcode.effect arg = op.effect := by
  cases op with
  | line | mark => cases hop
  | name o x =>
    cases hop
    exact effect_name o arg
  | jump o l =>
    cases hop
    cases o <;> rfl
  | const | arith | compare =>
    cases hop
    rfl
  | bare | count | call =>
    cases hop
    cases h
    rfl

namespace Inversion

section Store

variable {whole ops store : Stream} {op load : Op} {top d e : Int} {alone : Bool}

def LeadsFrom (whole : Stream) (top : Int) (ops : Stream) (d e : Int) : Prop :=
  ∀ ⦃index p code q⦄, encode whole index p ops = .ok (code, q) → InOrder top code d e

theorem leadsFrom_nil : LeadsFrom whole top [] d d := by
  intro index p code q hcode
  cases hcode
  exact .nil

theorem leadsFrom_cons {m : Int} (pops pushes : Nat) (hm : d - pops + pushes = m)
    (hrest : LeadsFrom whole top ops m e) (heffect : op.effect = (pops, pushes) := by rfl)
    (hpops : (pops : Int) ≤ d := by omega) (htop : m ≤ top := by omega)
    (hop : op.opcode = some opcode := by rfl)
    (hquiet : Quiet opcode := by exact ⟨rfl, by simp, by simp⟩) :
    LeadsFrom whole top (op :: ops) d e := by
  intro index p code q hcode
  obtain ⟨arg, mid, tail, harg, htail, rfl⟩ := (encode_cons_eq_ok_iff hop).1 hcode
  have hsame : opcode.effect arg = (pops, pushes) := (effect_of_argument hop harg).trans heffect
  have hafter : depthAfter ⟨opcode, arg⟩ d = m := by
    rw [depthAfter, hsame]
    exact hm
  refine .cons hquiet ?_ (hafter ▸ htop) (hafter ▸ hrest htail)
  rwa [hsame]

theorem leadsFrom_method {name : String} (hrest : LeadsFrom whole top ops (d + 1) e)
    (hd : 0 ≤ d := by omega) (htop : d + 1 ≤ top := by omega) :
    LeadsFrom whole top (method name ++ ops) d e :=
  leadsFrom_cons (m := d + 1) 0 1 (by omega) <| leadsFrom_cons 1 1 (by omega) hrest

theorem leadsFrom_const {k : Const} (hrest : LeadsFrom whole top ops (d + 1) e)
    (hd : 0 ≤ d := by omega) (htop : d + 1 ≤ top := by omega) :
    LeadsFrom whole top (.const k :: ops) d e :=
  leadsFrom_cons 0 1 (by omega) hrest

theorem effect_callFunction (args kwds : UInt8) :
    (Op.call .callFunction args kwds).effect = (1 + args.toNat + 2 * kwds.toNat, 1) := by
  simp only [Op.effect, Opcode.effect, splitArgSpec_argSpec]

theorem leadsFrom_call {n : UInt8} (k : Nat) (hk : n.toNat = k := by rfl)
    (hd : (k : Int) ≤ d := by omega) (htop : d + 1 ≤ top := by omega)
    (he : d + 1 - k = e := by omega) : LeadsFrom whole top [value, plainCall n] d e := by
  have heffect : (plainCall n).effect = (1 + k, 1) := hk ▸ effect_callFunction n 0
  refine leadsFrom_cons 0 1 rfl ?_
  exact leadsFrom_cons (1 + k) 1 (by omega) leadsFrom_nil heffect

theorem leadsFrom_store (h : replace? alone load = some store) {pops pushes : Nat}
    (heffect : load.effect = (pops, pushes)) (hpops : (pops : Int) ≤ d) :
    LeadsFrom whole (d + 4) store d (d - pops + pushes) := by
  unfold replace? at h
  split at h
  · split at h
    · cases h
      obtain ⟨rfl, rfl⟩ : 0 = pops ∧ 1 = pushes := Prod.mk.injEq .. ▸ heffect
      exact leadsFrom_method (leadsFrom_const (leadsFrom_call 2))
    · cases h
  · cases h
    obtain ⟨rfl, rfl⟩ : 1 = pops ∧ 1 = pushes := Prod.mk.injEq .. ▸ heffect
    refine leadsFrom_method ?_
    refine leadsFrom_cons 2 2 rfl ?_
    refine leadsFrom_const ?_
    exact leadsFrom_call 3
  · next args kwds =>
    cases h
    rw [effect_callFunction] at heffect
    cases heffect
    have hflat := toNat_flatCount args kwds
    refine leadsFrom_cons (flatCount args kwds).toNat 1 rfl ?_
    rw [hflat]
    refine leadsFrom_method ?_
    refine leadsFrom_cons 3 3 rfl ?_
    refine leadsFrom_const ?_
    exact leadsFrom_call 4
  · cases h
    obtain ⟨rfl, rfl⟩ : 2 = pops ∧ 1 = pushes := Prod.mk.injEq .. ▸ heffect
    refine leadsFrom_method ?_
    refine leadsFrom_cons 3 3 rfl ?_
    exact leadsFrom_call 3
  · cases h

end Store

variable {alone : Bool} {load : Op} {store ops : Stream} {header : Header} {i : Instruction}
  {front : Stream}

/-! ### Inverted streams are assembled -/

theorem quiet_load (h : replace? alone load = some store) (hop : load.opcode = some opcode) :
    Quiet opcode := by
  refine load_cases (motive := fun load => load.opcode = some opcode → Quiet opcode) h
    ?_ ?_ ?_ ?_ hop
  · rintro x ⟨⟩
    simp [Quiet, Opcode.endsFlow]
  · rintro x ⟨⟩
    simp [Quiet, Opcode.endsFlow]
  · rintro args kwds ⟨⟩
    simp [Quiet, Opcode.endsFlow]
  · rintro ⟨⟩
    simp [Quiet, Opcode.endsFlow]

theorem Renumbers.interchangeable {i' : Instruction} (h : Renumbers i i') :
    Interchangeable i i' := by
  rcases h with rfl | ⟨o, ho, ho', -⟩
  · exact .inl rfl
  · exact .inr ⟨o, o, ho, ho', rfl⟩

def shift (first tail : List Instruction) (n : Nat) : Nat :=
  if n ≤ first.length then n else n - 1 + tail.length

theorem exists_laced {mid last : Pools} {first first' : List Instruction}
    (hends : Ends ops front load) (hload : replace? alone load = some store)
    (hmiddle : Middle ops front store header mid first first')
    (hopcode : load.opcode = some i.opcode)
    (harg : argument ops (size front) mid load = .ok (i.arg, last))
    (hsize : size ops < 4294967296) :
    ∃ tail last', encode (front ++ (store ++ [.bare .returnValue])) (0 + size front) (widen mid)
        (store ++ [.bare .returnValue]) = .ok (tail ++ [⟨.bare .returnValue, 0⟩], last') ∧
      Laced (shift first tail) 4 0 (first ++ [i, ⟨.bare .returnValue, 0⟩])
        (first' ++ (tail ++ [⟨.bare .returnValue, 0⟩])) := by
  have hops := isStoreOp_of_mem_append hload
  have hjumps (n : Nat) (o : JumpOp) (l : Label) :
      (reals (store ++ [.bare .returnValue]))[n]? = some (.jump o l) →
        ∃ q, position? l 0 (front ++ (store ++ [.bare .returnValue])) = some q ∧
          (o.isRelative = true → 0 + size front + n < q) := fun hl => by
    cases hops _ (mem_of_mem_filter (mem_of_getElem? hl))
  obtain ⟨code, last', hcode⟩ := exists_encode (widen mid) hjumps
  obtain ⟨mid', tail, back, htail, hback, rfl⟩ := encode_append_eq_ok_iff.1 hcode
  obtain ⟨arg, p, back, ⟨⟩, ⟨⟩, rfl⟩ := (encode_cons_eq_ok_iff rfl).1 hback
  have hne : tail ≠ [] := by
    rintro rfl
    have hlength := length_of_encode htail
    rw [size_store hload] at hlength
    exact store_ne_nil hload (length_eq_zero_iff.1 hlength.symm)
  obtain ⟨pre, j, rfl⟩ := (eq_nil_or_concat' tail).resolve_left hne
  have hplace (k : Nat) (hk : k ≤ first.length) : shift first (pre ++ [j]) k = k := if_pos hk
  refine ⟨_, _, hcode, laced_append (hmiddle.renumbers.imp fun _ _ => Renumbers.interchangeable)
    (fun k hk => hplace k (by omega)) ?_ ?_⟩
  · intro k i o target hi ho htarget
    refine hplace target ?_
    obtain ⟨op, q, q', hop, hopcode', harg', -⟩ := getElem?_of_encode hmiddle.plain hi
    obtain ⟨l, rfl⟩ : ∃ l, op = .jump o l := by
      cases op <;> simp_all [Op.opcode]
    obtain ⟨opcode, arg⟩ := i
    cases ho
    obtain ⟨target', htarget', hleads⟩ := exists_position?_of_argument hsize harg'
    rw [htarget] at hleads
    cases hleads
    rw [hends.position?_eq hload] at htarget'
    have hbounds := (position?_bounds htarget').2
    rw [length_of_encode hmiddle.plain]
    omega
  · have hend : shift first (pre ++ [j]) (0 + first.length + 1) =
        shift first (pre ++ [j]) (0 + first.length) + pre.length + 1 := by
      simp [shift]
      omega
    have hreturn : shift first (pre ++ [j]) (0 + first.length + 1 + 1) =
        shift first (pre ++ [j]) (0 + first.length + 1) + 1 := by
      simp [shift]
      omega
    rw [append_assoc]
    refine .cons hend (standsFor_of_quiet hend (quiet_load hload hopcode) fun d hpops => ?_)
      (.one hreturn (standsFor_twin hreturn rfl rfl rfl fun _ _ => .nil) .nil)
    rw [depthAfter]
    exact leadsFrom_store hload (effect_of_argument hopcode harg).symm hpops htail

theorem exists_assembled_inverted {fileName : String} {c : Code} (hends : Ends ops front load)
    (hload : replace? alone load = some store) (hfront : ∀ op ∈ front, touches op = false)
    (hc : Assembled fileName ops header c) (hsize : size ops < 4294967296)
    (hargs : inverterSlot ∉ header.args ∧ valueSlot ∉ header.args)
    (hroom : c.stackSize.toNat + 4 < 4294967296)
    (hmax : ∀ max, header.maxStackSize = some max → c.stackSize.toNat + 4 ≤ max.toNat) :
    ∃ t, Assembled fileName (front ++ (store ++ [.bare .returnValue])) (reserve header) t := by
  obtain ⟨mid, first, first', hmiddle, ⟨i, hopcode, harg, hcode⟩, -⟩ :=
    exists_middle hends hload hfront hc.encode_eq
  obtain ⟨tail, last, htail, hlaced⟩ := exists_laced hends hload hmiddle hopcode harg hsize
  rw [← hcode] at hlaced
  have hlabels : checkLabels (front ++ (store ++ [.bare .returnValue])) = .ok () := by
    have hplain := checkLabels_eq_ok_iff.1 hc.labels
    rw [(hends.labels_eq hload).1, (hends.labels_eq hload).2] at hplain
    rw [checkLabels_eq_ok_iff, (labels_inverted hload front).1, (labels_inverted hload front).2]
    exact hplain
  have hparameters : (reserve header).args.Nodup := by
    refine nodup_cons.2 ⟨?_, nodup_cons.2 ⟨hargs.2, hc.parameters⟩⟩
    rw [mem_cons, not_or]
    exact ⟨by decide, hargs.1⟩
  obtain ⟨t, ht, -⟩ := hc.exists_of_laced (reserve header) 4 hlabels hparameters
    (encode_append_eq_ok_iff.2 ⟨_, _, _, hmiddle.inverted, htail, rfl⟩) hlaced rfl hroom hmax
  exact ⟨t, ht⟩

end Inversion

end Bytewright
