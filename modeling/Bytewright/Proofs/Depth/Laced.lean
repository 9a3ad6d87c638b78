import Bytewright.Proofs.Depth.Paths

/-!
# The depth of laced code

A path through code is a path through the laced code, with a detour for each instruction.  So laced
code is accepted where the code is, and at most as much deeper as the detours are.
-/

namespace Bytewright.Depth

open List

/-! ### Instructions that follow one another -/

/-- Flow goes on to the next instruction and nowhere else, in the same blocks. -/
def Quiet (op : Opcode) : Prop :=
  op.endsFlow = false ∧ op ≠ .bare .popBlock ∧ ∀ o, op ≠ .jump o

variable {i : Instruction} {ip : Nat} {s : State} {f : Flow} {top d e e' : Int}
  {code code' : List Instruction}

theorem flow_eq_ok_iff_of_quiet (h : Quiet i.opcode) :
    flow ip i s = .ok f ↔ ((i.opcode.effect i.arg).1 : Int) ≤ s.depth ∧
      f = ⟨depthAfter i s.depth, none, some ⟨depthAfter i s.depth, s.blocks⟩⟩ := by
  obtain ⟨hends, hclose, hjump⟩ := h
  have hleave : leave i.opcode s = .ok s.blocks := by
    refine leave_of_other ?_
    simp only [mem_cons, not_mem_nil, or_false, not_or]
    refine ⟨hclose, fun hreturn => ?_⟩
    rw [hreturn] at hends
    cases hends
  have hflow : flowFrom ip i s s.blocks =
      ⟨depthAfter i s.depth, none, some ⟨depthAfter i s.depth, s.blocks⟩⟩ := by
    have henter : enter i.opcode s.depth s.blocks = s.blocks :=
      enter_of_other (by simpa using ⟨hjump _, hjump _⟩)
    unfold flowFrom
    split
    · next hop _ => exact absurd hop (hjump _)
    · simp [hends, henter, depthAfter]
  rw [flow_eq_ok_iff, hleave]
  simp only [Except.ok.injEq, exists_eq_left', hflow]

/-- Quiet instructions that lead from one depth to another and never above `top`. -/
inductive InOrder (top : Int) : List Instruction → Int → Int → Prop
  | nil {d : Int} : InOrder top [] d d
  | cons {i : Instruction} {code : List Instruction} {d e : Int} (hquiet : Quiet i.opcode)
      (hpops : ((i.opcode.effect i.arg).1 : Int) ≤ d) (htop : depthAfter i d ≤ top)
      (hcode : InOrder top code (depthAfter i d) e) : InOrder top (i :: code) d e

theorem InOrder.unique (h : InOrder top code d e) (h' : InOrder top code d e') : e = e' := by
  induction h with
  | nil =>
    cases h'
    rfl
  | cons _ _ _ _ ih =>
    cases h'
    exact ih ‹_›

theorem inOrder_append :
    InOrder top (code ++ code') d e ↔ ∃ m, InOrder top code d m ∧ InOrder top code' m e := by
  induction code generalizing d with
  | nil =>
    refine ⟨fun h => ⟨d, .nil, h⟩, ?_⟩
    rintro ⟨m, hm, h⟩
    cases hm
    exact h
  | cons i code ih =>
    constructor
    · intro h
      cases h with
      | cons hquiet hpops htop hcode =>
        obtain ⟨m, hm, h⟩ := ih.1 hcode
        exact ⟨m, .cons hquiet hpops htop hm, h⟩
    · rintro ⟨m, hm, h⟩
      cases hm with
      | cons hquiet hpops htop hcode => exact .cons hquiet hpops htop (ih.2 ⟨m, hcode, h⟩)

/-! ### Laced code -/

/-- At its new place `j` does in depth `m` what `i` does at the old one. -/
def Resumes (place : Nat → Nat) (n : Nat) (i : Instruction) (length : Nat) (j : Instruction)
    (s : State) (m : Int) : Prop :=
  ∃ f f', flow n i s = .ok f ∧ flow (place n + length) j ⟨m, s.blocks⟩ = .ok f' ∧
    f'.deepest = f.deepest ∧ f'.edges (place n + length) = (f.edges n).map (Prod.map place id)

/-- Wherever `i` is not at fault, `pre` leads up to a depth from which `j` goes on in its place. -/
def StandsFor (place : Nat → Nat) (slack : Int) (n : Nat) (i : Instruction)
    (pre : List Instruction) (j : Instruction) : Prop :=
  ∀ s f, flow n i s = .ok f →
    ∃ m, InOrder (s.depth + slack) pre s.depth m ∧ Resumes place n i pre.length j s m

/-- The second code has detours in front of the instructions of the first, or in place of them. -/
inductive Laced (place : Nat → Nat) (slack : Int) :
    Nat → List Instruction → List Instruction → Prop
  | nil {n : Nat} : Laced place slack n [] []
  | cons {n : Nat} {i j : Instruction} {code code' pre : List Instruction}
      (hplace : place (n + 1) = place n + pre.length + 1)
      (hstands : StandsFor place slack n i pre j)
      (hrest : Laced place slack (n + 1) code code') :
      Laced place slack n (i :: code) (pre ++ j :: code')

section StandsFor

variable {place : Nat → Nat} {slack : Int} {n : Nat} {j : Instruction} {pre : List Instruction}

theorem Laced.one (hplace : place (n + 1) = place n + 1) (hstands : StandsFor place slack n i [] j)
    (hrest : Laced place slack (n + 1) code code') :
    Laced place slack n (i :: code) (j :: code') := by
  rw [← nil_append (j :: code')]
  exact .cons hplace hstands hrest

theorem standsFor_twin (hplace : place (n + 1) = place n + pre.length + 1)
    (hopcode : j.opcode = i.opcode) (heffect : i.opcode.effect j.arg = i.opcode.effect i.arg)
    (htarget : j.target (place n + pre.length) = (i.target n).map place)
    (hpre : ∀ d : Int, ((i.opcode.effect i.arg).1 : Int) ≤ d → InOrder (d + slack) pre d d) :
    StandsFor place slack n i pre j := by
  intro s f hf
  obtain ⟨blocks, hleave, hpops, rfl⟩ := flow_eq_ok_iff.1 hf
  have hmoved : flowFrom (place n + pre.length) j s blocks =
      { flowFrom n i s blocks with
        jump := (flowFrom n i s blocks).jump.map (Prod.map place id) } := by
    simp only [flowFrom, hopcode, heffect, htarget]
    cases hopcode : i.opcode <;> cases htarget : i.target n <;> rfl
  refine ⟨s.depth, hpre _ hpops, _, _, hf, flow_eq_ok_iff.2 ⟨blocks, ?_, ?_, rfl⟩, ?_, ?_⟩
  · rwa [hopcode]
  · rwa [hopcode, heffect]
  · rw [hmoved, Flow.deepest, Flow.deepest]
    cases (flowFrom n i s blocks).jump <;> rfl
  · rw [hmoved, Flow.edges, Flow.edges, ← hplace]
    cases (flowFrom n i s blocks).jump <;> cases (flowFrom n i s blocks).next <;> rfl

theorem standsFor_of_quiet (hplace : place (n + 1) = place n + pre.length + 1)
    (hquiet : Quiet i.opcode) (hpre : ∀ d : Int, ((i.opcode.effect i.arg).1 : Int) ≤ d →
      InOrder (d + slack) (pre ++ [j]) d (depthAfter i d)) : StandsFor place slack n i pre j := by
  intro s f hf
  obtain ⟨hpops, rfl⟩ := (flow_eq_ok_iff_of_quiet hquiet).1 hf
  obtain ⟨m, hm, hlast⟩ := inOrder_append.1 (hpre s.depth hpops)
  generalize hafter : depthAfter i s.depth = e at hlast
  cases hlast with
  | cons hquiet' hpops' htop hnil =>
    cases hnil
    refine ⟨m, hm, _, _, hf, (flow_eq_ok_iff_of_quiet hquiet').2 ⟨hpops', rfl⟩, hafter.symm, ?_⟩
    simp [Flow.edges, hplace, hafter]

end StandsFor

theorem Survey.recorded_of_inOrder {pre : List Instruction} {seen : Record} {deepest : Int}
    {blocks : List Int} (h : Survey code seen deepest []) (hpre : pre <+: code.drop ip)
    (horder : InOrder top pre d e) (hr : Recorded seen ip ⟨d, blocks⟩) :
    Recorded seen (ip + pre.length) ⟨e, blocks⟩ := by
  induction horder generalizing ip with
  | nil => exact hr
  | @cons i pre d e hquiet _ _ _ ih =>
    obtain ⟨rest, hrest⟩ := hpre
    have hi : code[ip]? = some i := by
      rw [← Nat.add_zero ip, ← getElem?_drop, ← hrest]
      rfl
    have hdrop : pre <+: code.drop (ip + 1) := by
      refine ⟨rest, ?_⟩
      rw [← drop_drop, ← hrest]
      rfl
    obtain ⟨j, f, hj, hf, -, hedges⟩ := h.flow_eq hr
    obtain rfl := Option.some.inj (hi.symm.trans hj)
    obtain ⟨-, rfl⟩ := (flow_eq_ok_iff_of_quiet hquiet).1 hf
    have hnext : Recorded seen (ip + 1) ⟨depthAfter i d, blocks⟩ := by
      simpa [Flow.edges] using hedges
    rw [length_cons, Nat.add_comm pre.length, ← Nat.add_assoc]
    exact ih hdrop hnext

namespace Laced

variable {code code' pre pre' : List Instruction} {place : Nat → Nat} {slack deepest : Int}
  {seen : Record} {n ip : Nat} {i j j' : Instruction} {s t : State} {k : Nat}

/-! ### Blocks of laced code -/

/-- The detour of instruction `n` lies in the laced code where it should. -/
structure Block (code' : List Instruction) (place : Nat → Nat) (slack : Int) (n : Nat)
    (i : Instruction) (pre : List Instruction) (j : Instruction) : Prop where
  lies : pre ++ [j] <+: code'.drop (place n)
  place_succ : place (n + 1) = place n + pre.length + 1
  stands : StandsFor place slack n i pre j

theorem exists_block (front : List Instruction) (h : Laced place slack n code code')
    (hfront : front.length = place n) (hi : code[k]? = some i) :
    ∃ pre j, Block (front ++ code') place slack (n + k) i pre j := by
  induction h generalizing front k with
  | nil => cases hi
  | @cons n i₀ j code code' pre hplace hstands hrest ih =>
    cases k with
    | zero =>
      cases hi
      refine ⟨pre, j, ⟨?_, hplace, hstands⟩⟩
      rw [Nat.add_zero, ← hfront, drop_left]
      exact ⟨code', by simp⟩
    | succ k =>
      obtain ⟨pre₁, j₁, hblock⟩ := ih (front ++ (pre ++ [j]))
        (by simp only [length_append, length_singleton]; omega) hi
      rw [show n + 1 + k = n + (k + 1) by omega] at hblock
      simp only [append_assoc, singleton_append] at hblock
      exact ⟨pre₁, j₁, hblock⟩

theorem Block.unique (h : Block code' place slack n i pre j)
    (h' : Block code' place slack n i pre' j') : pre = pre' := by
  have hlength : pre.length = pre'.length := by
    have := h.place_succ
    have := h'.place_succ
    omega
  have hsame : pre ++ [j] = pre' ++ [j'] :=
    (prefix_of_prefix_length_le h.lies h'.lies (by simp [hlength])).eq_of_length
      (by simp [hlength])
  exact (append_inj hsame hlength).1

theorem Block.getElem?_eq (h : Block code' place slack n i pre j) (hk : k ≤ pre.length) :
    code'[place n + k]? = (pre ++ [j])[k]? := by
  obtain ⟨rest, hrest⟩ := h.lies
  rw [← getElem?_drop, ← hrest, getElem?_append_left]
  simpa [Nat.lt_succ_iff] using hk

/-! ### Points of laced code -/

/-- The state of a place inside a detour, where the instruction was reached in a recorded state. -/
inductive Point (code code' : List Instruction) (place : Nat → Nat) (slack : Int) (seen : Record) :
    Nat → State → Prop
  | intro {n : Nat} {i j : Instruction} {d m e : Int} {blocks : List Int}
      {before after : List Instruction} (hr : Recorded seen n ⟨d, blocks⟩)
      (hi : code[n]? = some i) (hblock : Block code' place slack n i (before ++ after) j)
      (hbefore : InOrder (d + slack) before d m) (hafter : InOrder (d + slack) after m e)
      (hlast : Resumes place n i (before ++ after).length j ⟨d, blocks⟩ e) :
      Point code code' place slack seen (place n + before.length) ⟨m, blocks⟩

section Whole

variable (h : Laced place slack 0 code code') (hstart : place 0 = 0)
include h hstart

theorem exists_block_of_getElem? (hi : code[n]? = some i) :
    ∃ pre j, Block code' place slack n i pre j := by
  have hblock := exists_block [] h hstart.symm hi
  rwa [Nat.zero_add] at hblock

theorem place_le (hk : k < code.length) (hn : n < k) : place (n + 1) ≤ place k := by
  induction k with
  | zero => omega
  | succ k ih =>
    rcases Nat.lt_succ_iff_lt_or_eq.1 hn with hlt | rfl
    · obtain ⟨pre, j, hblock⟩ := h.exists_block_of_getElem? hstart
        (getElem?_eq_getElem (show k < code.length by omega))
      have hle := ih (by omega) hlt
      have hsucc := hblock.place_succ
      omega
    · exact le_rfl

theorem Point.unique (hs : Point code code' place slack seen ip s)
    (ht : Point code code' place slack seen ip t) : s = t := by
  obtain @⟨n, i, j, d, m, e, blocks, before, after, hr, hi, hblock, hbefore, -, -⟩ := hs
  generalize hip : place n + before.length = ip at ht
  obtain @⟨k, i', j', d', m', e', blocks', before', after', hr', hi', hblock', hbefore', -, -⟩ := ht
  have hn := (List.getElem?_eq_some_iff.1 hi).1
  have hk := (List.getElem?_eq_some_iff.1 hi').1
  have hsucc := hblock.place_succ
  have hsucc' := hblock'.place_succ
  rw [length_append] at hsucc hsucc'
  rcases Nat.lt_trichotomy n k with hlt | rfl | hlt
  · have := h.place_le hstart hk hlt
    omega
  · obtain rfl := Option.some.inj (hi.symm.trans hi')
    obtain ⟨rfl, -⟩ := append_inj (hblock.unique hblock') (by omega)
    cases hr.unique hr'
    rw [hbefore.unique hbefore']
  · have := h.place_le hstart hn hlt
    omega

theorem point_of_recorded (hs : Survey code seen deepest []) (hr : Recorded seen n s) :
    Point code code' place slack seen (place n) s := by
  obtain ⟨i, f, hi, hf, -⟩ := hs.flow_eq hr
  obtain ⟨pre, j, hblock⟩ := h.exists_block_of_getElem? hstart hi
  obtain ⟨m, hpre, hlast⟩ := hblock.stands s f hf
  rw [← nil_append pre] at hblock hlast
  exact .intro hr hi hblock .nil hpre hlast

theorem flow_eq_of_point (hslack : 0 ≤ slack) (hs : Survey code seen deepest [])
    (hp : Point code code' place slack seen ip s) :
    ∃ j f, code'[ip]? = some j ∧ flow ip j s = .ok f ∧ f.deepest ≤ deepest + slack ∧
      ∀ q ∈ f.edges ip, Point code code' place slack seen q.1 q.2 := by
  obtain @⟨n, i, j, d, m, e, blocks, before, after, hr, hi, hblock, hbefore, hafter, hlast⟩ := hp
  have hdepth := hs.depth_le hr
  cases hafter with
  | nil =>
    rw [append_nil] at hblock hlast
    obtain ⟨f, f', hf, hf', hdeepest, hedges'⟩ := hlast
    obtain ⟨i', g, hi', hg, hle, hedges⟩ := hs.flow_eq hr
    obtain rfl := Option.some.inj (hi.symm.trans hi')
    obtain rfl := Except.ok.inj (hf.symm.trans hg)
    refine ⟨j, f', ?_, hf', by omega, fun q hq => ?_⟩
    · rw [hblock.getElem?_eq le_rfl]
      simp
    · rw [hedges'] at hq
      obtain ⟨e, he, rfl⟩ := mem_map.1 hq
      exact h.point_of_recorded hstart hs ((hedges e he).resolve_right (by simp))
  | @cons j after _ _ hquiet hpops htop hrest =>
    refine ⟨j, _, ?_, (flow_eq_ok_iff_of_quiet hquiet).2 ⟨hpops, rfl⟩, ?_, fun q hq => ?_⟩
    · rw [hblock.getElem?_eq (by simp)]
      simp
    · show depthAfter j m ≤ _
      simp only at hdepth
      omega
    · obtain rfl : q = (place n + before.length + 1, ⟨depthAfter j m, blocks⟩) := by
        simpa [Flow.edges] using hq
      rw [append_cons] at hblock hlast
      have hpoint : Point code code' place slack seen (place n + (before ++ [j]).length)
          ⟨depthAfter j m, blocks⟩ :=
        .intro hr hi hblock (inOrder_append.2 ⟨m, hbefore, .cons hquiet hpops htop .nil⟩)
          hrest hlast
      simpa [Nat.add_assoc] using hpoint

/-! ### Depths -/

variable {seen' : Record} {deepest' : Int}

theorem recorded_edges (hs' : Survey code' seen' deepest' []) (hr' : Recorded seen' (place n) s)
    (hi : code[n]? = some i) (hf : flow n i s = .ok f) :
    f.deepest ≤ deepest' ∧ ∀ q ∈ f.edges n, Recorded seen' (place q.1) q.2 := by
  obtain ⟨pre, j, hblock⟩ := h.exists_block_of_getElem? hstart hi
  obtain ⟨m, hpre, f₁, f', hf₁, hf', hdeepest, hedges⟩ := hblock.stands s f hf
  obtain rfl := Except.ok.inj (hf.symm.trans hf₁)
  have htail : Recorded seen' (place n + pre.length) ⟨m, s.blocks⟩ :=
    hs'.recorded_of_inOrder ((prefix_append _ _).trans hblock.lies) hpre hr'
  obtain ⟨j', g, hj', hg, hle, hrecorded⟩ := hs'.flow_eq htail
  rw [hblock.getElem?_eq le_rfl, getElem?_concat_length] at hj'
  cases hj'
  obtain rfl := Except.ok.inj (hf'.symm.trans hg)
  refine ⟨hdeepest ▸ hle, fun q hq => ?_⟩
  refine (hrecorded (Prod.map place id q) ?_).resolve_right (by simp)
  rw [hedges]
  exact mem_map_of_mem hq

theorem recorded_of_reachable (hbalanced : Balanced code 0) (hs' : Survey code' seen' deepest' [])
    (hseen' : Recorded seen' 0 ⟨0, []⟩) {p : Nat × State} (hp : Reachable code 0 p) :
    Recorded seen' (place p.1) p.2 := by
  induction hp with
  | refl => rwa [hstart]
  | tail hp hstep ih =>
    obtain ⟨i, f, hi, hf, -⟩ := hbalanced.closed.flow_eq hp
    exact (h.recorded_edges hstart hs' ih hi hf).2 _ ((mem_edges_iff_step hi hf).2 hstep)

theorem survey_eq_ok (hslack : 0 ≤ slack) (hs : survey code 0 = .ok (seen, deepest)) :
    ∃ seen' deepest', survey code' 0 = .ok (seen', deepest') ∧ deepest ≤ deepest' ∧
      deepest' ≤ deepest + slack := by
  obtain ⟨hclosed, hseen⟩ := survey_closed hs
  have hpoints : Closed code' (Point code code' place slack seen) :=
    { unique := Point.unique h hstart
      flow_eq := fun hp => by
        obtain ⟨j, f, hj, hf, -, hedges⟩ := h.flow_eq_of_point hstart hslack hclosed hp
        exact ⟨j, f, hj, hf, hedges⟩ }
  have hfirst : Point code code' place slack seen 0 ⟨0, []⟩ := by
    have := h.point_of_recorded hstart hclosed hseen
    rwa [hstart] at this
  obtain ⟨seen', deepest', hsurvey, hdeepest⟩ := hpoints.survey_eq_ok hfirst
  obtain ⟨hclosed', hseen'⟩ := survey_closed hsurvey
  refine ⟨seen', deepest', hsurvey, ?_, ?_⟩
  · -- the greatest depth of the code shows at a point that a path leads to
    have hbalanced := hclosed.balanced hseen
    obtain ⟨seen₁, deepest₁, hsurvey₁, hdeepest₁⟩ := hbalanced.closed.survey_eq_ok .refl
    cases hs.symm.trans hsurvey₁
    rcases hdeepest₁ with rfl | ⟨ip, s, i, f, hp, hi, hf, rfl⟩
    · exact hclosed'.depth_le hseen'
    · have hr' := h.recorded_of_reachable hstart hbalanced hclosed' hseen' hp
      exact (h.recorded_edges hstart hclosed' hr' hi hf).1
  · rcases hdeepest with rfl | ⟨ip, s, j, f, hp, hj, hf, rfl⟩
    · have hdepth : (0 : Int) ≤ deepest := hclosed.depth_le hseen
      omega
    · obtain ⟨j', f', hj', hf', hle, -⟩ := h.flow_eq_of_point hstart hslack hclosed hp
      obtain rfl := Option.some.inj (hj.symm.trans hj')
      obtain rfl := Except.ok.inj (hf.symm.trans hf')
      exact hle

end Whole

end Laced

end Bytewright.Depth
