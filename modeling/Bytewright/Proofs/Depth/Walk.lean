import Mathlib
import Bytewright.Code.Depth

/-!
# What a walk over code records

A walk visits each instruction once.  States chosen for the instructions such that flow leads from
chosen states to chosen states keep every walk from failing.
-/

namespace Bytewright.Depth

open List

variable {code : List Instruction} {seen seen' : Record} {deepest deepest' : Int}
  {work : List (Nat × State)} {ip : Nat} {s : State}

/-- The walk has come to the place in this state. -/
def Recorded (seen : Record) (ip : Nat) (s : State) : Prop := seen[ip]? = some (some s)

variable {t : State} {i : Instruction} {f : Flow} {initial : Int} {jp : Nat}
  {P : Nat → State → Prop} {bound : Int}

theorem Recorded.unique (hs : Recorded seen ip s) (ht : Recorded seen ip t) : s = t := by
  rw [Recorded, ht] at hs
  simpa using hs.symm

theorem recorded_set_self (h : seen[ip]? = some none) : Recorded (seen.set ip (some s)) ip s := by
  obtain ⟨hlt, -⟩ := List.getElem?_eq_some_iff.1 h
  rw [Recorded, List.getElem?_set_self hlt]

theorem Recorded.set (h : seen[ip]? = some none) (ht : Recorded seen jp t) :
    Recorded (seen.set ip (some s)) jp t := by
  have hne : ip ≠ jp := by
    rintro rfl
    rw [Recorded, h] at ht
    simp at ht
  rwa [Recorded, getElem?_set_ne hne]

theorem recorded_of_recorded_set (h : seen[ip]? = some none)
    (ht : Recorded (seen.set ip (some s)) jp t) : jp = ip ∧ t = s ∨ Recorded seen jp t := by
  by_cases hj : ip = jp
  · subst hj
    exact Or.inl ⟨rfl, ht.unique (recorded_set_self h)⟩
  · right
    rwa [Recorded, getElem?_set_ne hj] at ht

/-! ### Ways out of an instruction -/

def flowFrom (ip : Nat) (i : Instruction) (s : State) (blocks : List Int) : Flow :=
  let after : State :=
    ⟨s.depth - (i.opcode.effect i.arg).1 + (i.opcode.effect i.arg).2, blocks⟩
  { after := after.depth
    jump := match i.opcode, i.target ip with
      | .jump op, some target => some (target, jumpState op s after)
      | _, _ => none
    next := if i.opcode.endsFlow then none
      else some { after with blocks := enter i.opcode s.depth blocks } }

theorem flow_eq_ok_iff :
    flow ip i s = .ok f ↔ ∃ blocks, leave i.opcode s = .ok blocks ∧
      ((i.opcode.effect i.arg).1 : Int) ≤ s.depth ∧ f = flowFrom ip i s blocks := by
  cases hl : leave i.opcode s with
  | error fault => simp [flow, hl, bind, Except.bind]
  | ok blocks =>
    by_cases hd : s.depth - (i.opcode.effect i.arg).1 < 0
    · have hn : ¬((i.opcode.effect i.arg).1 : Int) ≤ s.depth := by omega
      simp [flow, hl, bind, Except.bind, throw, throwThe, MonadExceptOf.throw, hd, hn]
    · have hn : ((i.opcode.effect i.arg).1 : Int) ≤ s.depth := by omega
      simp only [flow, hl, bind, Except.bind, hd, if_false, pure, Except.pure, Except.ok.injEq,
        hn, true_and, exists_eq_left', flowFrom]
      exact eq_comm

theorem depth_le_deepest (hf : flow ip i s = .ok f) {e : Nat × State} (he : e ∈ f.edges ip) :
    e.2.depth ≤ f.deepest := by
  obtain ⟨blocks, -, -, rfl⟩ := flow_eq_ok_iff.1 hf
  have hle : (flowFrom ip i s blocks).after ≤ (flowFrom ip i s blocks).deepest := by
    unfold Flow.deepest
    split <;> omega
  simp only [Flow.edges, mem_append, Option.mem_toList, Option.map_eq_some_iff] at he
  rcases he with ⟨t, ht, rfl⟩ | hj
  · simp only [flowFrom] at ht
    split at ht
    · cases ht
    · cases ht
      exact hle
  · simp only [Flow.deepest, hj]
    exact le_max_right _ _

/-! ### Records that are closed under flow -/

/-- Flow leads from recorded states to recorded ones, or to work that is still to be done. -/
structure Survey (code : List Instruction) (seen : Record) (deepest : Int)
    (work : List (Nat × State)) : Prop where
  length_eq : seen.length = code.length
  depth_le : ∀ {ip s}, Recorded seen ip s → s.depth ≤ deepest
  flow_eq : ∀ {ip s}, Recorded seen ip s → ∃ i f, code[ip]? = some i ∧ flow ip i s = .ok f ∧
    f.deepest ≤ deepest ∧ ∀ e ∈ f.edges ip, Recorded seen e.1 e.2 ∨ e ∈ work
  work_le : ∀ e ∈ work, e.2.depth ≤ deepest

theorem survey_initial (code : List Instruction) (initial : Int) :
    Survey code (List.replicate code.length none) initial [(0, ⟨initial, []⟩)] where
  length_eq := length_replicate
  depth_le h := by
    rw [Recorded, getElem?_replicate] at h
    split at h <;> simp at h
  flow_eq h := by
    rw [Recorded, getElem?_replicate] at h
    split at h <;> simp at h
  work_le := by simp

theorem Survey.visit (h : Survey code seen deepest ((ip, s) :: work))
    (hi : code[ip]? = some i) (hv : seen[ip]? = some none) (hf : flow ip i s = .ok f) :
    Survey code (seen.set ip (some s)) (max deepest f.deepest) (f.edges ip ++ work) where
  length_eq := by rw [length_set, h.length_eq]
  depth_le {jp t} ht := by
    rcases recorded_of_recorded_set hv ht with ⟨rfl, rfl⟩ | ht
    · exact le_max_of_le_left (h.work_le (jp, t) (mem_cons_self ..))
    · exact le_max_of_le_left (h.depth_le ht)
  flow_eq {jp t} ht := by
    rcases recorded_of_recorded_set hv ht with ⟨rfl, rfl⟩ | ht
    · exact ⟨i, f, hi, hf, le_max_right _ _, fun e he => Or.inr (mem_append_left _ he)⟩
    · obtain ⟨j, g, hj, hg, hle, hedges⟩ := h.flow_eq ht
      refine ⟨j, g, hj, hg, le_max_of_le_left hle, fun e he => ?_⟩
      rcases hedges e he with hr | hw
      · exact Or.inl (hr.set hv)
      · rcases mem_cons.1 hw with rfl | hw
        · exact Or.inl (recorded_set_self hv)
        · exact Or.inr (mem_append_right _ hw)
  work_le e he := by
    rcases mem_append.1 he with he | he
    · exact le_max_of_le_right (depth_le_deepest hf he)
    · exact le_max_of_le_left (h.work_le e (mem_cons_of_mem _ he))

theorem Survey.revisit (h : Survey code seen deepest ((ip, s) :: work))
    (hr : Recorded seen ip s) : Survey code seen deepest work where
  length_eq := h.length_eq
  depth_le := h.depth_le
  flow_eq ht := by
    obtain ⟨i, f, hi, hf, hle, hedges⟩ := h.flow_eq ht
    refine ⟨i, f, hi, hf, hle, fun e he => ?_⟩
    rcases hedges e he with hs | hw
    · exact Or.inl hs
    · rcases mem_cons.1 hw with rfl | hw
      · exact Or.inl hr
      · exact Or.inr hw
  work_le e he := h.work_le e (mem_cons_of_mem _ he)

theorem Survey.walk (hw : walk code seen deepest work = .ok (seen', deepest'))
    (h : Survey code seen deepest work) :
    Survey code seen' deepest' [] ∧ (∀ ip s, Recorded seen ip s → Recorded seen' ip s) ∧
      (∀ e ∈ work, Recorded seen' e.1 e.2) ∧ deepest ≤ deepest' := by
  fun_induction Depth.walk code seen deepest work with
  | case1 seen deepest =>
    cases hw
    exact ⟨h, fun _ _ hr => hr, by simp, le_rfl⟩
  | case2 | case5 | case6 => cases hw
  | case3 seen deepest ip s work i hv hi f hf ih =>
    obtain ⟨hs, hkeep, hwork, hle⟩ := ih hw (h.visit hi hv hf)
    refine ⟨hs, fun jp t ht => hkeep jp t (ht.set hv), fun e he => ?_,
      (le_max_left _ _).trans hle⟩
    rcases mem_cons.1 he with rfl | he
    · exact hkeep ip s (recorded_set_self hv)
    · exact hwork e (mem_append_right _ he)
  | case4 seen deepest ip work i before hv hi ih =>
    obtain ⟨hs, hkeep, hwork, hle⟩ := ih hw (h.revisit hv)
    refine ⟨hs, hkeep, fun e he => ?_, hle⟩
    rcases mem_cons.1 he with rfl | he
    · exact hkeep ip before hv
    · exact hwork e he

theorem survey_closed (h : survey code initial = .ok (seen, deepest)) :
    Survey code seen deepest [] ∧ Recorded seen 0 ⟨initial, []⟩ := by
  obtain ⟨hs, -, hwork, -⟩ := (survey_initial code initial).walk h
  exact ⟨hs, hwork (0, ⟨initial, []⟩) (mem_cons_self ..)⟩

/-- The instruction at a recorded place is not at fault, and leads to recorded states. -/
structure Visited (code : List Instruction) (seen : Record) (ip : Nat) (s : State)
    (i : Instruction) (blocks : List Int) : Prop where
  get_eq : code[ip]? = some i
  leave_eq : leave i.opcode s = .ok blocks
  pops_le : ((i.opcode.effect i.arg).1 : Int) ≤ s.depth
  next : i.opcode.endsFlow = false → Recorded seen (ip + 1)
    ⟨s.depth - (i.opcode.effect i.arg).1 + (i.opcode.effect i.arg).2, enter i.opcode s.depth blocks⟩
  jump : ∀ {op target}, i.opcode = .jump op → i.target ip = some target → Recorded seen target
    (jumpState op s ⟨s.depth - (i.opcode.effect i.arg).1 + (i.opcode.effect i.arg).2, blocks⟩)

theorem Survey.visited (h : Survey code seen deepest []) (hr : Recorded seen ip s) :
    ∃ i blocks, Visited code seen ip s i blocks := by
  obtain ⟨i, f, hi, hf, -, hedges⟩ := h.flow_eq hr
  obtain ⟨blocks, hleave, hpops, rfl⟩ := flow_eq_ok_iff.1 hf
  have hrec : ∀ e ∈ (flowFrom ip i s blocks).edges ip, Recorded seen e.1 e.2 := by
    intro e he
    rcases hedges e he with hr | hw
    · exact hr
    · simp at hw
  refine ⟨i, blocks, hi, hleave, hpops, fun hflow => ?_, fun {op target} hop ht => ?_⟩
  · refine hrec (ip + 1, _) (mem_append_left _ ?_)
    simp [flowFrom, hflow]
  · refine hrec (target, _) (mem_append_right _ ?_)
    simp only [flowFrom, hop, ht, Option.mem_toList]
    rfl

theorem Survey.lt_length (h : Survey code seen deepest []) (hr : Recorded seen ip s) :
    ip < code.length := by
  obtain ⟨i, f, hi, -⟩ := h.flow_eq hr
  exact (List.getElem?_eq_some_iff.1 hi).1

theorem checkFrom_eq_ok_iff {n : UInt32} :
    checkFrom code initial = .ok n ↔ ∃ seen deepest, survey code initial = .ok (seen, deepest) ∧
      deepest < 4294967296 ∧ n = UInt32.ofNat deepest.toNat := by
  cases h : survey code initial with
  | error e => simp [checkFrom, h, bind, Except.bind]
  | ok r =>
    obtain ⟨seen, deepest⟩ := r
    by_cases hd : deepest < 4294967296
    · simp [checkFrom, h, bind, Except.bind, hd, pure, Except.pure, eq_comm]
    · simp [checkFrom, h, bind, Except.bind, hd, throw, throwThe, MonadExceptOf.throw]

theorem toNat_ofNat_deepest (h : deepest < 4294967296) :
    (UInt32.ofNat deepest.toNat).toNat = deepest.toNat :=
  UInt32.toNat_ofNat_of_lt' (by simp only [UInt32.size]; omega)

/-! ### Points that are closed under flow -/

/-- Flow leads from `P` to `P`, and `P` has one state for a place at most. -/
structure Closed (code : List Instruction) (P : Nat → State → Prop) : Prop where
  unique : ∀ {ip s t}, P ip s → P ip t → s = t
  flow_eq : ∀ {ip s}, P ip s → ∃ i f, code[ip]? = some i ∧ flow ip i s = .ok f ∧
    ∀ e ∈ f.edges ip, P e.1 e.2

theorem Closed.walk_eq_ok (c : Closed code P) (hlen : seen.length = code.length)
    (hseen : ∀ ip s, Recorded seen ip s → P ip s) (hwork : ∀ e ∈ work, P e.1 e.2) :
    ∃ seen' deepest', walk code seen deepest work = .ok (seen', deepest') ∧
      (deepest' = deepest ∨ ∃ ip s i f, P ip s ∧ code[ip]? = some i ∧ flow ip i s = .ok f ∧
        deepest' = f.deepest) := by
  fun_induction Depth.walk code seen deepest work with
  | case1 seen deepest => exact ⟨seen, deepest, rfl, Or.inl rfl⟩
  | case2 seen deepest ip s work i hv hi fault hf =>
    obtain ⟨j, g, hj, hg, -⟩ := c.flow_eq (hwork (ip, s) (mem_cons_self ..))
    rw [hi, Option.some.injEq] at hj
    subst hj
    rw [hf] at hg
    cases hg
  | case3 seen deepest ip s work i hv hi f hf ih =>
    have hp : P ip s := hwork (ip, s) (mem_cons_self ..)
    obtain ⟨j, g, hj, hg, hedges⟩ := c.flow_eq hp
    rw [hi, Option.some.injEq] at hj
    subst hj
    rw [hf, Except.ok.injEq] at hg
    subst hg
    obtain ⟨seen', deepest', hw, hd⟩ := ih (by rw [length_set, hlen])
      (fun jp t ht => by
        rcases recorded_of_recorded_set hv ht with ⟨rfl, rfl⟩ | ht
        · exact hp
        · exact hseen jp t ht)
      (fun e he => by
        rcases mem_append.1 he with he | he
        · exact hedges e he
        · exact hwork e (mem_cons_of_mem _ he))
    refine ⟨seen', deepest', hw, ?_⟩
    rcases hd with hd | hd
    · rcases max_choice deepest f.deepest with hmax | hmax
      · exact Or.inl (hd.trans hmax)
      · exact Or.inr ⟨ip, s, i, f, hp, hi, hf, hd.trans hmax⟩
    · exact Or.inr hd
  | case4 seen deepest ip work i before hv hi ih =>
    exact ih hlen hseen fun e he => hwork e (mem_cons_of_mem _ he)
  | case5 seen deepest ip s work i before hv hi hne =>
    exact absurd (c.unique (hseen ip before hv) (hwork (ip, s) (mem_cons_self ..))) hne
  | case6 seen deepest ip s work hvisit hrevisit =>
    obtain ⟨i, -, hi, -⟩ := c.flow_eq (hwork (ip, s) (mem_cons_self ..))
    cases hv : seen[ip]? with
    | none =>
      rw [getElem?_eq_none_iff, hlen] at hv
      rw [getElem?_eq_none hv] at hi
      cases hi
    | some place =>
      cases place with
      | none => exact (hvisit _ hi hv).elim
      | some before => exact (hrevisit _ before hi hv).elim

theorem Closed.survey_eq_ok (c : Closed code P) (hstart : P 0 ⟨initial, []⟩) :
    ∃ seen deepest, survey code initial = .ok (seen, deepest) ∧
      (deepest = initial ∨ ∃ ip s i f, P ip s ∧ code[ip]? = some i ∧ flow ip i s = .ok f ∧
        deepest = f.deepest) := by
  refine c.walk_eq_ok length_replicate (fun ip s h => ?_) (by simpa using hstart)
  rw [Recorded, getElem?_replicate] at h
  split at h <;> simp at h

structure Plan (code : List Instruction) (deepest : Int) where
  state : Nat → State
  flow_eq : ∀ {ip i}, code[ip]? = some i → ∃ f, flow ip i (state ip) = .ok f ∧
    f.deepest ≤ deepest ∧ ∀ e ∈ f.edges ip, e.1 < code.length ∧ e.2 = state e.1

theorem Plan.closed (p : Plan code bound) :
    Closed code fun ip s => ip < code.length ∧ s = p.state ip where
  unique hs ht := hs.2.trans ht.2.symm
  flow_eq := by
    rintro ip s ⟨hlt, rfl⟩
    obtain ⟨f, hf, -, hedges⟩ := p.flow_eq (getElem?_eq_getElem hlt)
    exact ⟨_, f, getElem?_eq_getElem hlt, hf, hedges⟩

theorem Plan.check_eq_ok (p : Plan code bound) (hne : 0 < code.length)
    (hstart : p.state 0 = ⟨0, []⟩) (hbound : bound < 4294967296) : ∃ n, check code = .ok n := by
  obtain ⟨seen, deepest, hw, hd⟩ := p.closed.survey_eq_ok ⟨hne, hstart.symm⟩
  have hlt : deepest < 4294967296 := by
    rcases hd with rfl | ⟨ip, s, i, f, ⟨-, rfl⟩, hi, hf, rfl⟩
    · decide
    · obtain ⟨g, hg, hle, -⟩ := p.flow_eq hi
      rw [hf, Except.ok.injEq] at hg
      subst hg
      omega
  exact ⟨_, checkFrom_eq_ok_iff.2 ⟨seen, deepest, hw, hlt, rfl⟩⟩

end Bytewright.Depth
