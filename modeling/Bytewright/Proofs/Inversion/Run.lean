import Bytewright.Proofs.Inversion.Store
import Bytewright.Proofs.Link.Exact

/-!
# Inverted runs

If the inverter succeeds, the frame returns `None`; if it fails, its exception is raised where the
load is, perhaps inside a block with a handler, and then the run may come to the load again.
-/

namespace Bytewright

open Assemble List OfCode

variable {rest : List Value} {fuel : Nat}

namespace Run

variable {f : Frame} {callers : List Frame} {n : Nat} {m : Memory} {i : Instruction} {m' : Moment}

theorem proceed_of_raise {e : Exception} {entries : List TraceEntry} {again : Bool}
    (hi : f.code.code[f.ip]? = some i)
    (h : execute i f.ip ⟨f.ahead, m⟩ = .error (.raise e entries again) m') :
    proceed ⟨f, callers, n, m⟩ =
      unwind e (n + 1) m'.memory m'.frame callers f.ip entries again := by
  simp only [proceed, hi, h]

theorem proceed_of_fatal {cause : Fatal} (hi : f.code.code[f.ip]? = some i)
    (h : execute i f.ip ⟨f.ahead, m⟩ = .error (.fatal cause) m') :
    proceed ⟨f, [], n, m⟩ = .ended (.fatal cause [f.code.name]) m'.memory := by
  simp only [proceed, hi, h]
  rfl

theorem proceed_of_return {arg : UInt32} {v : Value}
    (hi : f.code.code[f.ip]? = some ⟨.bare .returnValue, arg⟩) (hstack : f.stack = v :: rest) :
    proceed ⟨f, [], n, m⟩ = .ended (.value v) m := by
  obtain ⟨code, fast, names, globals, closure, stack, blocks, handled, ip⟩ := f
  cases hstack
  simp only [proceed, hi]
  rfl

theorem exists_outcome?_of_proceeds {r r' : Run} {p : Outcome × Memory} (h : r.Proceeds r')
    (hr : outcome? fuel r = some p) :
    ∃ fuel' ≤ fuel, outcome? fuel' r' = some p := by
  induction h with
  | refl => exact ⟨fuel, le_rfl, hr⟩
  | tail _ hnext ih =>
    obtain ⟨fuel', hle, hout⟩ := ih
    rcases fuel' with _ | fuel'
    · cases hout
    · rw [outcome?, hnext] at hout
      exact ⟨fuel', Nat.le_of_succ_le hle, hout⟩

theorem unwind_withIp (e : Exception) (steps : Nat) (m : Memory) (f : Frame) (ip : Nat)
    (callers : List Frame) (index : Nat) (entries : List TraceEntry) (again : Bool) :
    unwind e steps m { f with ip } callers index entries again =
      unwind e steps m f callers index entries again := by
  rw [unwind_eq, unwind_eq]
  rfl

end Run

namespace Inversion

/-! ### Runs with the load replaced -/

/-- The place of the final load, with the store that is put there. -/
structure Site where
  load : Op
  place : Nat
  length : Nat
  inverter : Hook
  value : Value

namespace Site

/-- The method of the inverter is called in place of the load.  If it performs what it answers, the
frame returns `None`; if it fails, its exception is raised where the load is. -/
def store (s : Site) (r : Run) (call : HookCall) (operands : List Operand) (rest : List Value) :
    Progress :=
  let operands := operands ++ [.value s.value]
  let m := r.memory.aged.reported s.inverter call operands
  match r.memory.aged.store.perform (s.inverter.answer call) operands with
  | .ok store => .ended (.value .none) { m with store }
  | .error failure =>
    let (e, store) := r.memory.aged.store.failed failure
    Run.unwind e (r.steps + s.length) { m with store } { r.frame with stack := rest } [] s.place []
      false

def proceed? (s : Site) (r : Run) : Option Progress :=
  if r.callers = [] ∧ r.frame.ip = s.place then
    (s.load.loaded? r.frame.stack).map fun (call, operands, rest) => s.store r call operands rest
  else some r.proceed

/-- Runs of the unit, in which the inverter is called at the site. -/
def Proceeds (s : Site) : Run → Run → Prop :=
  Relation.ReflTransGen fun r r' => s.proceed? r = some (.running r')

end Site

/-! ### One instruction -/

variable {fileName : String} {ops front : Stream} {load : Op} {store : Stream} {header : Header}
  {c t : Code} {inverter : Hook} {v : Value} {f : Frame} {r r' : Run}

namespace Pair

theorem ne (h : Pair fileName ops front load store header c t) : c ≠ t := by
  intro heq
  have hlength := congrArg length h.varNames_eq
  rw [heq, length_cons, length_cons] at hlength
  omega

theorem twinned (h : Pair fileName ops front load store header c t) (inverter : Hook) (v : Value) :
    (h.shift inverter v).Twinned := fun _ hn _ hi => h.exists_twin inverter v hn hi

def site (_ : Pair fileName ops front load store header c t) (inverter : Hook) (v : Value) : Site :=
  ⟨load, size front, store.length, inverter, v⟩

variable (h : Pair fileName ops front load store header c t)
include h

theorem exists_load :
    ∃ i, c.code[size front]? = some i ∧ Denotes c (placeIn ops) (size front) i load := by
  obtain ⟨alone, hload⟩ := h.store_eq
  obtain ⟨-, lines, lines', -, hops⟩ := h.ends
  have hreal := isReal_of_replace? hload
  have hcarries := h.plain.carries_between h.addressable_plain front [load] _ hops.symm
    fun k hk => by
    obtain rfl := mem_singleton.1 hk
    cases hload
  exact ((carries_cons_of_isReal hreal).1 hcarries).1

theorem holds (inverter : Hook) (v : Value)
    (f : Frame) : Holds inverter v ((h.shift inverter v).equip f) := by
  have hget (n : Nat) (x : String) (hn : t.varNames[n]? = some x) (j : Nat)
      (hj : t.varNames[j]? = some x) : j = n :=
    (List.getElem?_inj (List.getElem?_eq_some_iff.1 hj).1 h.inverted.nodup_varNames).1
      (hj.trans hn.symm)
  constructor
  · intro j hj
    obtain rfl := hget 0 inverterSlot (by rw [h.varNames_eq]; rfl) j hj
    rfl
  · intro j hj
    obtain rfl := hget 1 valueSlot (by rw [h.varNames_eq]; rfl) j hj
    rfl

theorem carries_parts {body tail : Stream} {op : Op} (hstore : store = body ++ op :: tail) :
    Carries t (placeIn (front ++ (store ++ [.bare .returnValue]))) (size front) body ∧
      (∀ o ∈ body, o.isReal = true) ∧ op.isReal = true ∧
      ∃ i, t.code[size front + body.length]? = some i ∧
        Denotes t (placeIn (front ++ (store ++ [.bare .returnValue])))
          (size front + body.length) i op := by
  obtain ⟨alone, hload⟩ := h.store_eq
  have hreal (o : Op) (ho : o ∈ body ++ op :: tail) : o.isReal = true :=
    isReal_of_isStoreOp (isStoreOp_of_mem hload (hstore ▸ ho))
  have hsize : size body = body.length := by
    rw [size, countP_eq_length]
    exact fun o ho => hreal o (mem_append_left _ ho)
  have hop : op.isReal = true := hreal op (by simp)
  have hcarries := (carries_append.1 h.carries_store).1
  generalize placeIn (front ++ (store ++ [.bare .returnValue])) = place at hcarries ⊢
  rw [hstore, carries_append, carries_cons_of_isReal hop, hsize] at hcarries
  exact ⟨hcarries.1, fun o ho => hreal o (mem_append_left _ ho), hop, hcarries.2.1⟩

theorem exists_return :
    ∃ arg, t.code[size front + store.length]? = some ⟨.bare .returnValue, arg⟩ := by
  have hcarries := (carries_append.1 h.carries_store).2
  rw [h.size_store] at hcarries
  obtain ⟨⟨⟨opcode, arg⟩, hi, hop⟩, -⟩ := (carries_cons_of_isReal rfl).1 hcarries
  cases hop
  exact ⟨arg, hi⟩

theorem equipsProgress_unwind
    (hfits : (h.shift inverter v).Fits f) {k : Nat} (hk : k < store.length) (e : Exception)
    (steps : Nat) (m : Memory) :
    (h.shift inverter v).EquipsProgress (Run.unwind e steps m f [] (size front) [] false)
      (Run.unwind e steps m ((h.shift inverter v).equip f) [] (size front + k) [] false) := by
  have hentry : f.entry (size front) =
      ((h.shift inverter v).equip f).entry (size front + k) := by
    have hline := h.lineFor_store hk
    have hname := (h.shift inverter v).name_eq
    have hfileName := (h.shift inverter v).fileName_eq
    rw [Frame.entry, Frame.entry, hfits.code_eq, hname, hfileName]
    exact congrArg (TraceEntry.mk _ _) hline.symm
  have hlinked : Progress.Linked (h.shift inverter v).alignment (fun _ => []) Eq
      (Run.unwind e steps m f [] (size front) [] false)
      (Run.unwind e steps m ((h.shift inverter v).equip f) [] (size front + k) [] false) :=
    Run.unwind_linked (Value.linked_refl (.exception e)) (fun _ => rfl) (m.linked_refl _)
      (.bottom hfits.aligned) hentry [] false
  refine .of_linked hlinked h.ne (fun r hr => ?_) fun r hr => ?_
  · exact (Run.base_of_unwind hr).trans hfits.code_eq
  · exact Run.base_of_unwind hr

variable (hkind : inverter.kind = .inverter)
include hkind

theorem exists_proceeds_of_loaded
    (hfits : (h.shift inverter v).Fits f) (hip : f.ip = size front) {call : HookCall}
    {operands : List Operand} (hload : load.loaded? f.stack = some (call, operands, rest))
    (steps : Nat) (m : Memory) : ∃ r, Run.Proceeds ⟨(h.shift inverter v).equip f, [], steps, m⟩ r ∧
      (h.shift inverter v).EquipsProgress
        ((h.site inverter v).store ⟨f, [], steps, m⟩ call operands rest) r.proceed := by
  obtain ⟨alone, hstore⟩ := h.store_eq
  obtain ⟨body, n, args, hparts, hn, hoperands, hwalks⟩ :=
    exists_walks (m := m) (h.holds inverter v f) hkind hstore hload
  rw [← hkind] at hoperands
  obtain ⟨hbody, hreal, -, i, hi, hdenotes⟩ := h.carries_parts hparts
  have hlength : store.length = body.length + 1 := by
    rw [hparts, length_append, length_singleton]
  have hproceeds := hwalks.proceeds hbody hreal [] steps
  rw [← hip] at hproceeds
  cases hperform : m.aged.store.perform (inverter.answer call) (operands ++ [.value v]) with
  | ok s =>
    have hleads : (plainCall n).Leads ((h.shift inverter v).equip f)
        (args.reverse ++ .method m.store.nextId inverter call :: rest) m.aged (.none :: rest)
        { m.aged.reported inverter call (operands ++ [.value v]) with store := s } :=
      Op.leads_plainCall hn hoperands hperform
    have hcall := hleads _ _ _ hdenotes
    obtain ⟨arg, hreturn⟩ := h.exists_return
    rw [hlength, ← Nat.add_assoc] at hreturn
    rw [← hip] at hi hcall hreturn
    refine ⟨_, .tail hproceeds (Run.proceed_of_next hi hcall), ?_⟩
    have hended : (h.site inverter v).store ⟨f, [], steps, m⟩ call operands rest =
        .ended (.value .none)
          { m.aged.reported inverter call (operands ++ [.value v]) with store := s } := by
      simp only [Site.store, site, hperform]
    rw [hended, Run.proceed_of_return hreturn rfl]
    exact .ended _ _
  | error failure =>
    have hcall := execute_call_of_failure ((h.shift inverter v).equip f) rest m.aged m.store.nextId
      hn hoperands hperform hdenotes
    rw [← hip] at hi hcall
    have hfits' : (h.shift inverter v).Fits { f with stack := rest } :=
      ⟨hfits.code_eq, hfits.ip_le, hfits.handler_le⟩
    refine ⟨_, hproceeds, ?_⟩
    rw [Run.proceed_of_raise hi hcall]
    show (h.shift inverter v).EquipsProgress _ (Run.unwind _ _ _
      { (h.shift inverter v).equip { f with stack := rest } with ip := f.ip + body.length + 1 } []
        (f.ip + body.length) [] false)
    rw [Run.unwind_withIp]
    simp only [Site.store, site, hperform, hlength, ← hip, ← Nat.add_assoc]
    have hlast : body.length < store.length := by omega
    have hpaces := h.equipsProgress_unwind hfits' hlast
    rw [← hip] at hpaces
    exact hpaces _ _ _

theorem exists_proceeds (hequips : (h.shift inverter v).Equips r r') {p : Progress}
    (hp : (h.site inverter v).proceed? r = some p) :
    ∃ next, r'.Proceeds next ∧ (h.shift inverter v).EquipsProgress p next.proceed := by
  unfold Site.proceed? at hp
  split_ifs at hp with hsite
  · obtain ⟨⟨call, operands, rest⟩, hload, rfl⟩ := Option.map_eq_some_iff.1 hp
    obtain ⟨hfits, rfl⟩ := hequips.outermost hsite.1
    obtain ⟨f, callers, steps, m⟩ := r
    obtain ⟨rfl, hip⟩ := hsite
    exact h.exists_proceeds_of_loaded hkind hfits hip hload steps m
  · cases hp
    refine ⟨r', .refl, hequips.proceed h.ne (h.twinned inverter v) fun hcallers => ?_⟩
    exact lt_of_le_of_ne (hequips.outermost hcallers).1.ip_le fun heq => hsite ⟨hcallers, heq⟩

theorem finishes_of_proceed?_eq_none (hequips : (h.shift inverter v).Equips r r')
    (hnone : (h.site inverter v).proceed? r = none) :
    ∃ n m, r'.Finishes (.fatal (.underflow n) [c.name]) m ∧ (m = r.memory ∨ m = r.memory.aged) := by
  unfold Site.proceed? at hnone
  split_ifs at hnone with hsite
  obtain ⟨hfits, rfl⟩ := hequips.outermost hsite.1
  obtain ⟨alone, hstore⟩ := h.store_eq
  obtain ⟨body, op, tail, ws, m, hparts, hm, hwalks, hstops⟩ := exists_stops (m := r.memory)
    (h.holds inverter v r.frame) hkind hstore (Option.map_eq_none_iff.1 hnone)
  obtain ⟨hbody, hreal, -, i, hi, hdenotes⟩ := h.carries_parts hparts
  have hproceeds := hwalks.proceeds hbody hreal [] r.steps
  obtain ⟨last, hlast⟩ := hstops _ _ i m hdenotes
  rw [show size front = r.frame.ip from hsite.2.symm] at hi hproceeds hlast
  refine ⟨r.frame.ip + body.length, m, ⟨_, hproceeds, (Run.proceed_of_fatal hi hlast).trans ?_⟩, hm⟩
  exact congrArg (fun x => Progress.ended (.fatal _ [x]) m) (h.shift inverter v).name_eq.symm

end Pair

/-! ### Many instructions -/

/-- The run of the inverted unit does what the run of the unit does in which the inverter is called.
-/
structure Performed (s : Site) (S : Shift True) (start start' : Run) : Prop where
  keepsPace : ∀ r, s.Proceeds start r → ∃ r', start'.Proceeds r' ∧ S.Equips r r'
  ends : ∀ r o m, s.Proceeds start r → s.proceed? r = some (.ended o m) → start'.Finishes o m
  isCutOff : ∀ r, s.Proceeds start r → s.proceed? r = none →
    ∃ n m, start'.Finishes (.fatal (.underflow n) [S.plain.name]) m ∧
      (m = r.memory ∨ m = r.memory.aged)
  only : ∀ o m, start'.Finishes o m →
    ∃ r, s.Proceeds start r ∧ (s.proceed? r = some (.ended o m) ∨ s.proceed? r = none)

namespace Pair

variable {start start' : Run} {o : Outcome} {m : Memory}
  (h : Pair fileName ops front load store header c t) (hkind : inverter.kind = .inverter)
  (hstart : (h.shift inverter v).Equips start start')
include h hkind hstart

theorem exists_proceeds_of_proceeds (hr : (h.site inverter v).Proceeds start r) :
    ∃ r', start'.Proceeds r' ∧ (h.shift inverter v).Equips r r' := by
  induction hr with
  | refl => exact ⟨start', .refl, hstart⟩
  | tail _ hnext ih =>
    obtain ⟨r', hr', hequips⟩ := ih
    obtain ⟨last, hlast, hprogress⟩ := h.exists_proceeds hkind hequips hnext
    generalize hnext' : last.proceed = p at hprogress
    cases hprogress with
    | running hequips' => exact ⟨_, .tail (hr'.trans hlast) hnext', hequips'⟩

theorem exists_proceeds_of_outcome? (hout : start'.outcome? fuel = some (o, m)) :
    ∃ r, (h.site inverter v).Proceeds start r ∧
      ((h.site inverter v).proceed? r = some (.ended o m) ∨
        (h.site inverter v).proceed? r = none) := by
  -- one instruction of the one run is one or more of the other
  induction fuel using Nat.strong_induction_on generalizing start start' with
  | _ fuel ih =>
    cases hp : (h.site inverter v).proceed? start with
    | none => exact ⟨start, .refl, .inr hp⟩
    | some p =>
      obtain ⟨last, hlast, hprogress⟩ := h.exists_proceeds hkind hstart hp
      obtain ⟨fuel', hle, hout'⟩ := Run.exists_outcome?_of_proceeds hlast hout
      rcases fuel' with _ | fuel'
      · cases hout'
      rw [Run.outcome?] at hout'
      generalize hnext : last.proceed = q at hprogress hout'
      cases hprogress with
      | running hequips =>
        obtain ⟨r, hr, hor⟩ := ih fuel' (by omega) hequips hout'
        exact ⟨r, .head hp hr, hor⟩
      | ended o' m' =>
        cases hout'
        exact ⟨start, .refl, .inl hp⟩

theorem performed :
    Performed (h.site inverter v) (h.shift inverter v) start start' where
  keepsPace _ := h.exists_proceeds_of_proceeds hkind hstart
  ends r o m hr hended := by
    obtain ⟨r', hr', hequips⟩ := h.exists_proceeds_of_proceeds hkind hstart hr
    obtain ⟨last, hlast, hprogress⟩ := h.exists_proceeds hkind hequips hended
    generalize hnext : last.proceed = p at hprogress
    cases hprogress with
    | ended => exact ⟨last, hr'.trans hlast, hnext⟩
  isCutOff r hr hnone := by
    obtain ⟨r', hr', hequips⟩ := h.exists_proceeds_of_proceeds hkind hstart hr
    obtain ⟨n, m, hfinishes, hm⟩ := h.finishes_of_proceed?_eq_none hkind hequips hnone
    exact ⟨n, m, (Run.Finishes.of_proceeds hr').2 hfinishes, hm⟩
  only o m hfinishes := by
    obtain ⟨fuel, hout⟩ := hfinishes.exists_outcome?
    exact h.exists_proceeds_of_outcome? hkind hstart (hout fuel le_rfl)

end Pair

end Inversion

end Bytewright
