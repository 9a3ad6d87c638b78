import Bytewright.Proofs.Depth.Walk

/-!
# All paths through code

There are infinitely many paths as soon as code has a loop; a walk visits each place once, and still
decides whether the code is balanced.
-/

namespace Bytewright.Depth

open List

def depthAfter (i : Instruction) (d : Int) : Int :=
  d - (i.opcode.effect i.arg).1 + (i.opcode.effect i.arg).2

/-- One instruction of a path: to the next place, or to where it jumps. -/
inductive Step (code : List Instruction) : Nat × State → Nat × State → Prop
  | next {ip i d blocks} (hi : code[ip]? = some i) (hflow : i.opcode.endsFlow = false)
      (hop : i.opcode ∉ [.bare .popBlock, .jump .setupExcept, .jump .setupLoop]) :
      Step code (ip, ⟨d, blocks⟩) (ip + 1, ⟨depthAfter i d, blocks⟩)
  | closeBlock {ip arg d blocks} (hi : code[ip]? = some ⟨.bare .popBlock, arg⟩) :
      Step code (ip, ⟨d, d :: blocks⟩) (ip + 1, ⟨d, blocks⟩)
  | openBlock {ip i d blocks} (hi : code[ip]? = some i)
      (hop : i.opcode ∈ [.jump .setupExcept, .jump .setupLoop]) :
      Step code (ip, ⟨d, blocks⟩) (ip + 1, ⟨d, d :: blocks⟩)
  | jump {ip i d blocks target} (hi : code[ip]? = some i)
      (hop : i.opcode ∈ [.jump .jumpForward, .jump .jumpAbsolute, .jump .popJumpIfFalse,
        .jump .popJumpIfTrue]) (ht : i.target ip = some target) :
      Step code (ip, ⟨d, blocks⟩) (target, ⟨depthAfter i d, blocks⟩)
  | handler {ip i d blocks target} (hi : code[ip]? = some i)
      (hop : i.opcode = .jump .setupExcept) (ht : i.target ip = some target) :
      Step code (ip, ⟨d, blocks⟩) (target, ⟨d + 3, blocks⟩)
  | loopEnd {ip i d blocks target} (hi : code[ip]? = some i)
      (hop : i.opcode = .jump .setupLoop) (ht : i.target ip = some target) :
      Step code (ip, ⟨d, blocks⟩) (target, ⟨d, blocks⟩)
  | exhausted {ip i d blocks target} (hi : code[ip]? = some i)
      (hop : i.opcode = .jump .forIter) (ht : i.target ip = some target) :
      Step code (ip, ⟨d, blocks⟩) (target, ⟨d - 1, blocks⟩)

/-- Something is wrong at this place in this state. -/
inductive Faulty (code : List Instruction) : Nat × State → Prop
  | outside {ip s} (hip : code.length ≤ ip) : Faulty code (ip, s)
  | underflow {ip i s} (hi : code[ip]? = some i) (hd : s.depth < (i.opcode.effect i.arg).1) :
      Faulty code (ip, s)
  | unevenBlock {ip arg d base blocks} (hi : code[ip]? = some ⟨.bare .popBlock, arg⟩)
      (hd : base ≠ d) : Faulty code (ip, ⟨d, base :: blocks⟩)
  | noBlock {ip arg d} (hi : code[ip]? = some ⟨.bare .popBlock, arg⟩) : Faulty code (ip, ⟨d, []⟩)
  | unevenReturn {ip arg d} (hi : code[ip]? = some ⟨.bare .returnValue, arg⟩) (hd : d ≠ 1) :
      Faulty code (ip, ⟨d, []⟩)

/-- Some path leads from the start to this place in this state. -/
def Reachable (code : List Instruction) (initial : Int) (p : Nat × State) : Prop :=
  Relation.ReflTransGen (Step code) (0, ⟨initial, []⟩) p

/-- No path comes to a fault, and no two paths come to one place in different states. -/
structure Balanced (code : List Instruction) (initial : Int) : Prop where
  not_faulty : ∀ {p}, Reachable code initial p → ¬Faulty code p
  unique : ∀ {ip s t}, Reachable code initial (ip, s) → Reachable code initial (ip, t) → s = t

/-- A depth that is seen on some path, before, at or after an instruction. -/
inductive Shows (code : List Instruction) (initial : Int) : Int → Prop
  | start : Shows code initial initial
  | effect {ip s i} (hp : Reachable code initial (ip, s)) (hi : code[ip]? = some i) :
      Shows code initial (depthAfter i s.depth)
  | step {p q} (hp : Reachable code initial p) (hq : Step code p q) : Shows code initial q.2.depth

variable {code : List Instruction} {initial deepest : Int} {seen : Record} {ip : Nat} {s : State}
  {i : Instruction} {f : Flow} {blocks : List Int} {op : Opcode} {q : Nat × State}

/-! ### The flow out of an instruction -/

theorem leave_of_other (hop : op ∉ [.bare .popBlock, .bare .returnValue]) :
    leave op s = .ok s.blocks := by
  simp only [mem_cons, not_mem_nil, or_false, not_or] at hop
  unfold leave
  split
  · exact absurd rfl hop.1
  · exact absurd rfl hop.2
  · rfl

theorem exists_leave_of_not_faulty (hi : code[ip]? = some i) (h : ¬Faulty code (ip, s)) :
    ∃ blocks, leave i.opcode s = .ok blocks := by
  obtain ⟨op, arg⟩ := i
  obtain ⟨d, blocks⟩ := s
  by_cases hop : op ∈ [.bare .popBlock, .bare .returnValue]
  · simp only [mem_cons, not_mem_nil, or_false] at hop
    rcases hop with rfl | rfl
    · rcases blocks with _ | ⟨base, outer⟩
      · exact absurd (.noBlock hi) h
      · by_cases hd : base = d
        · exact ⟨outer, if_pos hd⟩
        · exact absurd (.unevenBlock hi hd) h
    · by_cases hd : blocks = [] ∧ d ≠ 1
      · obtain ⟨rfl, hd⟩ := hd
        exact absurd (.unevenReturn hi hd) h
      · exact ⟨blocks, if_neg hd⟩
  · exact ⟨blocks, leave_of_other hop⟩

theorem exists_flow_iff_not_faulty (hi : code[ip]? = some i) :
    (∃ f, flow ip i s = .ok f) ↔ ¬Faulty code (ip, s) := by
  constructor
  · rintro ⟨f, hf⟩ hfaulty
    obtain ⟨blocks, hleave, hpops, -⟩ := flow_eq_ok_iff.1 hf
    cases hfaulty with
    | outside hip =>
      rw [getElem?_eq_none hip] at hi
      cases hi
    | underflow hj hd =>
      obtain rfl := Option.some.inj (hi.symm.trans hj)
      omega
    | unevenBlock hj hd | unevenReturn hj hd =>
      obtain rfl := Option.some.inj (hi.symm.trans hj)
      simp [leave, hd] at hleave
    | noBlock hj =>
      obtain rfl := Option.some.inj (hi.symm.trans hj)
      cases hleave
  · intro h
    obtain ⟨blocks, hleave⟩ := exists_leave_of_not_faulty hi h
    have hpops : ((i.opcode.effect i.arg).1 : Int) ≤ s.depth := by
      by_contra hd
      exact h (.underflow hi (by omega))
    exact ⟨_, flow_eq_ok_iff.2 ⟨blocks, hleave, hpops, rfl⟩⟩

theorem leave_eq_blocks (hop : op ≠ .bare .popBlock) (h : leave op s = .ok blocks) :
    s.blocks = blocks := by
  unfold leave at h
  split at h
  · exact absurd rfl hop
  · split at h
    · cases h
    · exact Except.ok.inj h
  · exact Except.ok.inj h

theorem enter_of_other {d : Int}
    (hop : op ∉ [.jump .setupExcept, .jump .setupLoop]) : enter op d blocks = blocks := by
  unfold enter
  split
  · simp at hop
  · simp at hop
  · rfl

theorem mem_edges_flowFrom :
    q ∈ (flowFrom ip i s blocks).edges ip ↔
      (i.opcode.endsFlow = false ∧
        q = (ip + 1, ⟨depthAfter i s.depth, enter i.opcode s.depth blocks⟩)) ∨
      ∃ op target, i.opcode = .jump op ∧ i.target ip = some target ∧
        q = (target, jumpState op s ⟨depthAfter i s.depth, blocks⟩) := by
  simp only [Flow.edges, mem_append, Option.mem_toList, Option.map_eq_some_iff]
  refine or_congr ?_ ⟨fun h => ?_, ?_⟩
  · by_cases hflow : i.opcode.endsFlow = true <;> simp [flowFrom, depthAfter, hflow, eq_comm]
  · simp only [flowFrom] at h
    split at h
    · next op target hop ht => exact ⟨op, target, hop, ht, (Option.some.inj h).symm⟩
    · cases h
  · rintro ⟨op, target, hop, ht, rfl⟩
    simp only [flowFrom, depthAfter, hop, ht]

theorem step_next (hi : code[ip]? = some i) (hleave : leave i.opcode s = .ok blocks)
    (hflow : i.opcode.endsFlow = false) :
    Step code (ip, s) (ip + 1, ⟨depthAfter i s.depth, enter i.opcode s.depth blocks⟩) := by
  obtain ⟨op, arg⟩ := i
  obtain ⟨d, outer⟩ := s
  by_cases hclose : op = .bare .popBlock
  · subst hclose
    rcases outer with _ | ⟨base, outer⟩
    · cases hleave
    · by_cases hd : base = d
      · subst hd
        obtain rfl : outer = blocks := by simpa [leave] using hleave
        simpa [depthAfter, Opcode.effect, enter] using Step.closeBlock hi
      · simp [leave, hd] at hleave
  · obtain rfl : outer = blocks := leave_eq_blocks hclose hleave
    by_cases hopen : op ∈ [.jump .setupExcept, .jump .setupLoop]
    · have hstep : Step code (ip, ⟨d, outer⟩) (ip + 1, ⟨d, d :: outer⟩) := .openBlock hi hopen
      simp only [mem_cons, not_mem_nil, or_false] at hopen
      rcases hopen with rfl | rfl <;> simpa [depthAfter, Opcode.effect, enter] using hstep
    · rw [enter_of_other hopen]
      exact .next hi hflow (by simpa [hclose] using hopen)

theorem step_jump {op : JumpOp} {target : Nat} (hi : code[ip]? = some i)
    (hop : i.opcode = .jump op) (ht : i.target ip = some target) :
    Step code (ip, s) (target, jumpState op s ⟨depthAfter i s.depth, s.blocks⟩) := by
  cases op with
  | setupExcept => exact .handler hi hop ht
  | setupLoop => exact .loopEnd hi hop ht
  | forIter => exact .exhausted hi hop ht
  | _ => exact .jump hi (by simp [hop]) ht

theorem Step.edge (h : Step code (ip, s) q)
    (hi : code[ip]? = some i) (hleave : leave i.opcode s = .ok blocks) :
    (i.opcode.endsFlow = false ∧
      q = (ip + 1, ⟨depthAfter i s.depth, enter i.opcode s.depth blocks⟩)) ∨
    ∃ op target, i.opcode = .jump op ∧ i.target ip = some target ∧
      q = (target, jumpState op s ⟨depthAfter i s.depth, blocks⟩) := by
  cases h with obtain rfl := Option.some.inj (hi.symm.trans hj)
  | next hj hflow hop =>
    simp only [mem_cons, not_mem_nil, or_false, not_or] at hop
    rw [← leave_eq_blocks hop.1 hleave, enter_of_other (by simpa using hop.2)]
    exact Or.inl ⟨hflow, rfl⟩
  | closeBlock hj =>
    obtain rfl : _ = blocks := by simpa [leave] using hleave
    exact Or.inl ⟨rfl, by simp [depthAfter, Opcode.effect, enter]⟩
  | openBlock hj hop =>
    obtain ⟨op, arg⟩ := i
    simp only [mem_cons, not_mem_nil, or_false] at hop
    left
    rcases hop with rfl | rfl <;>
      exact ⟨rfl, by simp [← leave_eq_blocks (by simp) hleave, depthAfter, Opcode.effect, enter]⟩
  | jump hj hop ht =>
    simp only [mem_cons, not_mem_nil, or_false] at hop
    right
    rcases hop with hop | hop | hop | hop <;>
      exact ⟨_, _, hop, ht, by rw [← leave_eq_blocks (by simp [hop]) hleave]; rfl⟩
  | handler hj hop ht | loopEnd hj hop ht | exhausted hj hop ht =>
    exact Or.inr ⟨_, _, hop, ht, rfl⟩

theorem mem_edges_iff_step (hi : code[ip]? = some i)
    (hf : flow ip i s = .ok f) : q ∈ f.edges ip ↔ Step code (ip, s) q := by
  obtain ⟨blocks, hleave, -, rfl⟩ := flow_eq_ok_iff.1 hf
  rw [mem_edges_flowFrom]
  refine ⟨?_, fun hstep => hstep.edge hi hleave⟩
  rintro (⟨hflow, rfl⟩ | ⟨op, target, hop, ht, rfl⟩)
  · exact step_next hi hleave hflow
  · obtain rfl : s.blocks = blocks := leave_eq_blocks (by simp [hop]) hleave
    exact step_jump hi hop ht

theorem depthAfter_le_deepest (hf : flow ip i s = .ok f) : depthAfter i s.depth ≤ f.deepest := by
  obtain ⟨blocks, -, -, rfl⟩ := flow_eq_ok_iff.1 hf
  unfold Flow.deepest
  split
  · exact le_max_left _ _
  · exact le_rfl

theorem deepest_eq_or (hf : flow ip i s = .ok f) :
    f.deepest = depthAfter i s.depth ∨ ∃ q ∈ f.edges ip, f.deepest = q.2.depth := by
  obtain ⟨blocks, -, -, rfl⟩ := flow_eq_ok_iff.1 hf
  unfold Flow.deepest
  split
  · next target t hjump =>
    rcases max_choice (flowFrom ip i s blocks).after t.depth with hmax | hmax
    · exact Or.inl hmax
    · exact Or.inr ⟨(target, t), mem_append_right _ (by simp [hjump]), hmax⟩
  · exact Or.inl rfl

/-! ### Walks and paths -/

theorem Balanced.closed (h : Balanced code initial) :
    Closed code fun ip s => Reachable code initial (ip, s) where
  unique := h.unique
  flow_eq {ip s} hp := by
    have hlt : ip < code.length := by
      by_contra hle
      exact h.not_faulty hp (.outside (by omega))
    have hi : code[ip]? = some code[ip] := getElem?_eq_getElem hlt
    obtain ⟨f, hf⟩ := (exists_flow_iff_not_faulty hi).2 (h.not_faulty hp)
    exact ⟨_, f, hi, hf, fun q hq => hp.tail ((mem_edges_iff_step hi hf).1 hq)⟩

section

variable (h : Survey code seen deepest []) (hstart : Recorded seen 0 ⟨initial, []⟩)
include h hstart

theorem Survey.recorded_of_reachable {p : Nat × State} (hp : Reachable code initial p) :
    Recorded seen p.1 p.2 := by
  induction hp with
  | refl => exact hstart
  | tail _ hstep ih =>
    obtain ⟨i, f, hi, hf, -, hedges⟩ := h.flow_eq ih
    rcases hedges _ ((mem_edges_iff_step hi hf).2 hstep) with hr | hw
    · exact hr
    · simp at hw

theorem Survey.balanced : Balanced code initial where
  not_faulty {p} hp := by
    obtain ⟨i, f, hi, hf, -⟩ := h.flow_eq (h.recorded_of_reachable hstart hp)
    exact (exists_flow_iff_not_faulty hi).1 ⟨f, hf⟩
  unique hs ht := (h.recorded_of_reachable hstart hs).unique (h.recorded_of_reachable hstart ht)

theorem Survey.shows_le {d : Int} (hd : Shows code initial d) : d ≤ deepest := by
  cases hd with
  | start => exact h.depth_le hstart
  | effect hp hi =>
    obtain ⟨j, f, hj, hf, hle, -⟩ := h.flow_eq (h.recorded_of_reachable hstart hp)
    obtain rfl := Option.some.inj (hi.symm.trans hj)
    exact (depthAfter_le_deepest hf).trans hle
  | step hp hq => exact h.depth_le (h.recorded_of_reachable hstart (hp.tail hq))

end

theorem shows_deepest (hp : Reachable code initial (ip, s)) (hi : code[ip]? = some i)
    (hf : flow ip i s = .ok f) : Shows code initial f.deepest := by
  rcases deepest_eq_or hf with hd | ⟨q, hq, hd⟩
  · rw [hd]
    exact .effect hp hi
  · rw [hd]
    exact .step hp ((mem_edges_iff_step hi hf).1 hq)

theorem Balanced.survey_eq_ok (h : Balanced code initial) :
    ∃ seen deepest, survey code initial = .ok (seen, deepest) ∧
      IsGreatest {d | Shows code initial d} deepest := by
  obtain ⟨seen, deepest, hsurvey, hd⟩ := h.closed.survey_eq_ok .refl
  obtain ⟨hclosed, hstart⟩ := survey_closed hsurvey
  refine ⟨seen, deepest, hsurvey, ?_, fun d hd => hclosed.shows_le hstart hd⟩
  rcases hd with rfl | ⟨ip, s, i, f, hp, hi, hf, rfl⟩
  · exact .start
  · exact shows_deepest hp hi hf

theorem Balanced.initial_nonneg (h : Balanced code initial) : 0 ≤ initial := by
  obtain ⟨i, f, hi, hf, -⟩ := h.closed.flow_eq .refl
  obtain ⟨-, -, hpops, -⟩ := flow_eq_ok_iff.1 hf
  exact (Int.natCast_nonneg _).trans hpops

/-- A check accepts exactly the balanced code, with the greatest depth that shows on its paths, as
long as that is a size. -/
theorem checkFrom_decides_all_paths (code : List Instruction) (initial : Int) :
    (∀ n : UInt32, checkFrom code initial = .ok n ↔
      Balanced code initial ∧ IsGreatest {d | Shows code initial d} (n.toNat : Int)) ∧
    (Balanced code initial → ∃ d, IsGreatest {d | Shows code initial d} d ∧
      (4294967296 ≤ d → checkFrom code initial = .error ⟨0, .outOfRange d⟩)) := by
  refine ⟨fun n => ⟨fun hn => ?_, fun ⟨hbalanced, hgreatest⟩ => ?_⟩, fun hbalanced => ?_⟩
  · obtain ⟨seen, deepest, hsurvey, hlt, rfl⟩ := checkFrom_eq_ok_iff.1 hn
    obtain ⟨hclosed, hstart⟩ := survey_closed hsurvey
    have hbalanced : Balanced code initial := hclosed.balanced hstart
    obtain ⟨seen', deepest', hsurvey', hgreatest⟩ := hbalanced.survey_eq_ok
    rw [hsurvey, Except.ok.injEq, Prod.mk.injEq] at hsurvey'
    obtain rfl := hsurvey'.2
    have hnonneg : 0 ≤ deepest := hbalanced.initial_nonneg.trans (hgreatest.2 .start)
    refine ⟨hbalanced, ?_⟩
    rwa [toNat_ofNat_deepest hlt, Int.toNat_of_nonneg hnonneg]
  · obtain ⟨seen, deepest, hsurvey, hdeepest⟩ := hbalanced.survey_eq_ok
    obtain rfl : deepest = n.toNat := hdeepest.unique hgreatest
    refine checkFrom_eq_ok_iff.2 ⟨seen, n.toNat, hsurvey, ?_, by simp⟩
    exact_mod_cast n.toNat_lt
  · obtain ⟨seen, deepest, hsurvey, hgreatest⟩ := hbalanced.survey_eq_ok
    refine ⟨deepest, hgreatest, fun hle => ?_⟩
    have hnot : ¬deepest < 4294967296 := by omega
    simp [checkFrom, hsurvey, bind, Except.bind, hnot, throw, throwThe, MonadExceptOf.throw]

def guardedLoop : List Instruction :=
  [⟨.jump .setupLoop, 10⟩, ⟨.loadConst, 0⟩, ⟨.bare .getIter, 0⟩, ⟨.jump .forIter, 6⟩,
   ⟨.name .storeFast, 0⟩, ⟨.jump .setupExcept, 2⟩, ⟨.bare .popBlock, 0⟩, ⟨.jump .jumpAbsolute, 3⟩,
   ⟨.bare .endFinally, 0⟩, ⟨.jump .jumpAbsolute, 3⟩, ⟨.bare .popBlock, 0⟩, ⟨.loadConst, 0⟩,
   ⟨.bare .returnValue, 0⟩]

/-- All paths through the loop are in order, and the handler is as deep as they get. -/
theorem guardedLoop_paths_in_order : checkFrom guardedLoop 0 = .ok 4 ∧ Balanced guardedLoop 0 ∧
    IsGreatest {d | Shows guardedLoop 0 d} 4 := by
  have hcheck : checkFrom guardedLoop 0 = .ok 4 := by cbv
  exact ⟨hcheck, ((checkFrom_decides_all_paths guardedLoop 0).1 4).1 hcheck⟩

end Bytewright.Depth
