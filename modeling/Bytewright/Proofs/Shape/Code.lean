import Bytewright.Proofs.Depth.Walk
import Bytewright.Proofs.Shape.Place

/-!
# Shapes of code

The depths of shapes are a plan for the check of depths, so code with shapes passes it.
-/

namespace Bytewright

open Assemble List OfCode

/-! ### Depths of shapes -/

namespace Shape

def levels : List (List Kind) → List Int
  | [] => []
  | u :: us => ((⟨u, us⟩ : Shape).depth : Int) :: levels us

def state (s : Shape) : Depth.State := ⟨s.depth, levels s.under⟩

theorem state_inside (s : Shape) : s.inside.state = ⟨s.depth, s.depth :: levels s.under⟩ := by
  rw [state, depth_inside]
  rfl

theorem state_handler (s : Shape) : s.handler.state = ⟨s.depth + 3, levels s.under⟩ := by
  rw [state, depth_handler]
  rfl

structure Flows (i : Instruction) (ip : Nat) (s jump next : Shape) (f : Depth.Flow) : Prop where
  next_eq : ∀ u, f.next = some u → i.opcode.endsFlow = false ∧ u = next.state
  jump_eq : ∀ p u, f.jump = some (p, u) → i.target ip = some p ∧ u = jump.state
  after_le : f.after ≤ s.depth ∨ i.opcode.endsFlow = false ∧ f.after = next.depth

end Shape

variable {s : Shape} {n : Nat} {rest front : Stream} {last : Pools}

section Flow

open Depth

variable {i : Instruction} {op : Opcode} {ip : Nat} {u : State} {blocks : List Int}
  {jump next : Shape}

theorem leave_eq_ok (hpop : op ≠ .bare .popBlock) (hreturn : op ≠ .bare .returnValue) (s : State) :
    leave op s = .ok s.blocks := by
  unfold leave
  split
  · exact absurd rfl hpop
  · exact absurd rfl hreturn
  · rfl

theorem jump_flowFrom {p : Nat} {s : State} (h : (flowFrom ip i s blocks).jump = some (p, u)) :
    ∃ op, i.opcode = .jump op ∧ i.target ip = some p ∧
      u = jumpState op s ⟨s.depth - (i.opcode.effect i.arg).1 + (i.opcode.effect i.arg).2,
        blocks⟩ := by
  simp only [flowFrom] at h
  split at h
  · next op target hop htarget =>
    cases h
    exact ⟨op, hop, htarget, rfl⟩
  · cases h

theorem next_flowFrom {s : State} (h : (flowFrom ip i s blocks).next = some u) :
    i.opcode.endsFlow = false ∧
      u = ⟨s.depth - (i.opcode.effect i.arg).1 + (i.opcode.effect i.arg).2,
        enter i.opcode s.depth blocks⟩ := by
  simp only [flowFrom] at h
  split at h
  · cases h
  · next hflow =>
    cases h
    exact ⟨by simpa using hflow, rfl⟩

theorem endsFlow_cases (h : op.endsFlow = true) :
    (∃ o, op = .jump o ∧ (o = .jumpForward ∨ o = .jumpAbsolute)) ∨ op = .count .raiseVarargs ∨
      op = .bare .returnValue := by
  unfold Opcode.endsFlow at h
  split at h
  · exact .inl ⟨_, rfl, .inl rfl⟩
  · exact .inl ⟨_, rfl, .inr rfl⟩
  · exact .inr (.inl rfl)
  · exact .inr (.inr rfl)
  · cases h

theorem enter_eq (h : op.movesBlock = false) (depth : Int) (blocks : List Int) :
    enter op depth blocks = blocks := by
  unfold enter
  split
  · cases h
  · cases h
  · rfl

theorem exists_flow_of_leave (ip : Nat) (blocks : List Int) (after : Int)
    (hleave : leave i.opcode s.state = .ok blocks) (hpops : (i.opcode.effect i.arg).1 ≤ s.depth)
    (hafter : (s.depth : Int) - (i.opcode.effect i.arg).1 + (i.opcode.effect i.arg).2 = after)
    (hnext : i.opcode.endsFlow = false → ⟨after, enter i.opcode s.depth blocks⟩ = next.state)
    (hjump : ∀ op, i.opcode = .jump op → jumpState op s.state ⟨after, blocks⟩ = jump.state)
    (hle : after ≤ s.depth ∨ i.opcode.endsFlow = false ∧ after = next.depth) :
    ∃ f, flow ip i s.state = .ok f ∧ Shape.Flows i ip s jump next f := by
  subst hafter
  refine ⟨_, flow_eq_ok_iff.2 ⟨blocks, hleave, Int.ofNat_le.2 hpops, rfl⟩, fun u hu => ?_,
    fun p u hu => ?_, hle⟩
  · obtain ⟨hflow, rfl⟩ := next_flowFrom hu
    exact ⟨hflow, hnext hflow⟩
  · obtain ⟨op, hop, htarget, rfl⟩ := jump_flowFrom hu
    exact ⟨htarget, hjump op hop⟩

theorem Shape.Step.exists_flow (h : Shape.Step i.opcode i.arg s jump next) (ip : Nat) :
    ∃ f, flow ip i s.state = .ok f ∧ Shape.Flows i ip s jump next f := by
  cases h with
  | @fall taken left rest under hflow hblock htaken hfinds hleft =>
    have hdepth := Shape.depth_append taken rest under
    have hdepth' := Shape.depth_append left rest under
    have hlength : left.length = (i.opcode.effect i.arg).2 := by
      rw [← hleft.length_eq, length_leaves]
    have hpop : i.opcode ≠ .bare .popBlock := fun h => by rw [h] at hblock; cases hblock
    have hreturn : i.opcode ≠ .bare .returnValue := fun h => by rw [h] at hflow; cases hflow
    refine exists_flow_of_leave ip _ _ (leave_eq_ok hpop hreturn _) (by omega) (by omega)
      (fun _ => ?_)
      (fun op hop => ?_) (.inr ⟨hflow, rfl⟩)
    · rw [enter_eq hblock]
      rfl
    · rw [hop] at hflow hblock htaken hlength
      cases op with
      | jumpForward | jumpAbsolute => cases hflow
      | setupExcept | setupLoop => cases hblock
      | popJumpIfFalse | popJumpIfTrue =>
        simp only [Opcode.effect] at hlength
        simp only [jumpState, Shape.state, hdepth', hlength, Nat.zero_add]
      | forIter =>
        simp only [Opcode.effect] at htaken
        simp only [jumpState, Shape.state, hdepth, htaken]
        congr 1
        omega
  | @stop taken rest under next hflow hreturn htaken hfinds =>
    have hdepth := Shape.depth_append taken rest under
    have hpop : i.opcode ≠ .bare .popBlock := fun h => by rw [h] at hflow; cases hflow
    have hpushes : (i.opcode.effect i.arg).2 = 0 := by
      rcases endsFlow_cases hflow with ⟨o, hop, rfl | rfl⟩ | hop | hop
      · rw [hop]
        rfl
      · rw [hop]
        rfl
      · rw [hop]
        rfl
      · exact absurd hop hreturn
    have hafter : ((⟨taken ++ rest, under⟩ : Shape).depth : Int) - (i.opcode.effect i.arg).1 +
        (i.opcode.effect i.arg).2 = (⟨rest, under⟩ : Shape).depth := by omega
    refine exists_flow_of_leave ip _ _ (leave_eq_ok hpop hreturn _) (by omega) hafter
      (fun h => by rw [hflow] at h; cases h) (fun op hop => ?_) (.inl (by omega))
    rcases endsFlow_cases hflow with ⟨o, hop', rfl | rfl⟩ | hop' | hop'
    · rw [hop'] at hop
      cases hop
      rfl
    · rw [hop'] at hop
      cases hop
      rfl
    · rw [hop'] at hop
      cases hop
    · exact absurd hop' hreturn
  | @ret k _ _ hop =>
    have hdepth : (⟨[k], []⟩ : Shape).depth = 1 := rfl
    refine exists_flow_of_leave ip [] 0 ?_ ?_ ?_ (fun h => ?_) (fun op hop' => ?_)
      (.inl (by omega))
    · rw [hop]
      rfl
    · rw [hop]
      exact le_rfl
    · rw [hop]
      rfl
    · rw [hop] at h
      cases h
    · rw [hop] at hop'
      cases hop'
  | except hop | loop hop =>
    have heffect : i.opcode.effect i.arg = (0, 0) := by rw [hop]; rfl
    refine exists_flow_of_leave ip _ _ (leave_eq_ok (by simp [hop]) (by simp [hop]) _)
      (by simp [heffect]) (by simp [heffect]) (fun _ => ?_) (fun op hop' => ?_) (.inl le_rfl)
    · rw [hop, Shape.state_inside]
      rfl
    · rw [hop] at hop'
      cases hop'
      first | rfl | (rw [Shape.state_handler]; rfl)
  | @leave _ _ hop =>
    have heffect : i.opcode.effect i.arg = (0, 0) := by rw [hop]; rfl
    have hdepth := next.depth_inside
    refine exists_flow_of_leave ip (Shape.levels next.under) next.depth ?_
      (by simp [heffect]) (by simp [heffect]) (fun _ => ?_) (fun op hop' => ?_) (.inl ?_)
    · rw [hop, Shape.state_inside]
      exact if_pos rfl
    · rw [hop]
      rfl
    · rw [hop] at hop'
      cases hop'
    · rw [hdepth]

end Flow

/-! ### Code -/

/-- Every instruction leads from the shape of its place to the shapes of the places it goes to. -/
structure Shaped (code : List Instruction) (bound : Nat) (place : Nat → Shape) : Prop where
  depth_le : ∀ ip < code.length, (place ip).depth ≤ bound
  step : ∀ ip i, code[ip]? = some i →
    ∃ jump, Shape.Step i.opcode i.arg (place ip) jump (place (ip + 1)) ∧
      ∀ target, i.target ip = some target → target < code.length ∧ place target = jump
  next_lt : ∀ ip i, code[ip]? = some i → i.opcode.endsFlow = false → ip + 1 < code.length

variable {code : List Instruction} {bound : Nat} {place : Nat → Shape}

def Shaped.plan (h : Shaped code bound place) : Depth.Plan code bound where
  state ip := (place ip).state
  flow_eq {ip i} hi := by
    obtain ⟨jump, hstep, htarget⟩ := h.step ip i hi
    obtain ⟨f, hf, hflows⟩ := hstep.exists_flow ip
    obtain ⟨hlt, -⟩ := List.getElem?_eq_some_iff.1 hi
    have hdepth := h.depth_le ip hlt
    have hjump : ∀ p u, f.jump = some (p, u) → p < code.length ∧ u = (place p).state := by
      intro p u hu
      obtain ⟨hp, rfl⟩ := hflows.jump_eq p u hu
      obtain ⟨hp, heq⟩ := htarget p hp
      exact ⟨hp, by rw [heq]⟩
    have hafter : f.after ≤ bound := by
      rcases hflows.after_le with hle | ⟨hflow, heq⟩
      · omega
      · have := h.depth_le (ip + 1) (h.next_lt ip i hi hflow)
        omega
    refine ⟨f, hf, ?_, fun e he => ?_⟩
    · rw [Depth.Flow.deepest]
      cases hu : f.jump with
      | none => exact hafter
      | some e =>
        obtain ⟨p, u⟩ := e
        obtain ⟨hp, rfl⟩ := hjump p u hu
        exact max_le hafter (Int.ofNat_le.2 (h.depth_le p hp))
    · simp only [Depth.Flow.edges, mem_append, Option.mem_toList, Option.map_eq_some_iff] at he
      rcases he with ⟨u, hu, rfl⟩ | he
      · obtain ⟨hflow, rfl⟩ := hflows.next_eq u hu
        exact ⟨h.next_lt ip i hi hflow, rfl⟩
      · exact hjump e.1 e.2 he

variable {ops : Stream} {index : Nat} {p : Pools} {op : Op}

theorem Shaped.check_eq_ok (h : Shaped code bound place) (hne : 0 < code.length)
    (hstart : place 0 = ⟨[], []⟩) (hbound : bound < 4294967296) :
    ∃ n, Depth.check code = .ok n := by
  refine h.plan.check_eq_ok hne ?_ (by omega)
  show (place 0).state = ⟨0, []⟩
  rw [hstart]
  rfl

/-! ### The code of a stream -/

theorem reals_cons_of_marker (h : op.opcode = none) (ops : Stream) :
    reals (op :: ops) = reals ops :=
  filter_cons_of_neg (by rw [isReal_eq_isSome_opcode, h]; simp)

theorem exists_split (h : (reals ops)[n]? = some op) :
    ∃ front back, ops = front ++ op :: back ∧ (reals ops).take n = reals front := by
  induction ops generalizing n with
  | nil => cases h
  | cons op' ops ih =>
    by_cases hreal : op'.isReal = true
    · rw [reals, filter_cons_of_pos hreal] at h ⊢
      cases n with
      | zero =>
        cases h
        exact ⟨[], ops, rfl, rfl⟩
      | succ n =>
        obtain ⟨front, back, rfl, htake⟩ := ih h
        refine ⟨op' :: front, back, rfl, ?_⟩
        rw [take_succ_cons, reals, filter_cons_of_pos hreal]
        exact congrArg (op' :: ·) htake
    · rw [reals, filter_cons_of_neg hreal] at h ⊢
      obtain ⟨front, back, rfl, htake⟩ := ih h
      refine ⟨op' :: front, back, rfl, htake.trans ?_⟩
      rw [reals, reals, filter_cons_of_neg hreal]

theorem getElem?_of_encode {i : Instruction} (h : encode ops index p rest = .ok (code, last))
    (hi : code[n]? = some i) :
    ∃ op q q', (reals rest)[n]? = some op ∧ op.opcode = some i.opcode ∧
      argument ops (index + n) q op = .ok (i.arg, q') ∧ q'.Upto last := by
  induction h using encode_induction generalizing n with
  | nil => cases hi
  | marker hop _ ih =>
    rw [reals_cons_of_marker hop]
    exact ih hi
  | real hop harg htail ih =>
    rw [reals_cons_of_isReal (isReal_of_opcode hop)]
    cases n with
    | zero =>
      cases hi
      exact ⟨_, _, _, rfl, hop, harg, upto_of_encode htail⟩
    | succ n =>
      rw [← Nat.add_assoc, Nat.add_right_comm]
      exact ih hi

theorem Shape.Step.of_argument {p' : Pools} {opcode : Opcode} {arg : UInt32} {j t : Shape}
    (hop : op.opcode = some opcode) (harg : argument ops index p op = .ok (arg, p'))
    (h : Shape.Step opcode op.countArg s j t) : Shape.Step opcode arg s j t := by
  cases op with
  | line | mark => cases hop
  | bare o | count o n | call o args kwds =>
    cases hop
    cases harg
    exact h
  | const c | arith o | compare o =>
    cases hop
    exact h.congr (.inl rfl) rfl rfl fun _ hf => hf
  | name o x | jump o l =>
    cases hop
    exact h.congr (.inl rfl) (by cases o <;> rfl) (by cases o <;> rfl)
      fun _ hf => by cases o <;> exact hf

theorem position?_le_of_return {l : Label} {p : Nat}
    (h : position? l 0 (front ++ [.bare .returnValue]) = some p) : p ≤ size front := by
  have hreturn (index : Nat) : position? l index [.bare .returnValue] = none := rfl
  rw [position?_append, hreturn, Option.or_none] at h
  have := (position?_bounds h).2
  omega

theorem getElem?_reals_return (front : Stream) :
    (reals (front ++ [.bare .returnValue]))[size front]? = some (.bare .returnValue) := by
  rw [reals_append, ← length_reals]
  exact getElem?_concat_length

theorem shaped_of_encode {shapes : Label → Shape}
    (hplaced : Placed shapes bound place 0 (front ++ [.bare .returnValue]))
    (hsize : size (front ++ [.bare .returnValue]) < 4294967296)
    (h : encode (front ++ [.bare .returnValue]) 0 p (front ++ [.bare .returnValue]) =
      .ok (code, last)) : Shaped code bound place := by
  have hlength : code.length = size front + 1 := (length_of_encode h).trans (size_append _ _)
  refine ⟨fun ip hip => ?_, fun ip i hi => ?_, fun ip i hi hflow => ?_⟩
  · have := hplaced.depth_le ip (by rw [← length_of_encode h]; omega)
    rwa [Nat.zero_add] at this
  · obtain ⟨op, q, q', hop, hopcode, harg, -⟩ := getElem?_of_encode h hi
    obtain ⟨jump, hstep, hjump⟩ := hplaced.step ip op i.opcode hop hopcode
    rw [Nat.zero_add] at hstep harg
    refine ⟨jump, hstep.of_argument hopcode harg, fun target htarget => ?_⟩
    obtain ⟨opcode, arg⟩ := i
    cases op with
    | jump o l =>
      cases hopcode
      obtain ⟨q, hq, htarget'⟩ := exists_position?_of_argument hsize harg
      rw [htarget, Option.some.injEq] at htarget'
      subst htarget'
      have hle := position?_le_of_return hq
      exact ⟨by omega, (hplaced.mark l target hq).trans (hjump o l rfl)⟩
    | line | mark => cases hopcode
    | _ =>
      cases hopcode
      cases htarget
  · obtain ⟨hlt, -⟩ := List.getElem?_eq_some_iff.1 hi
    by_contra hlast
    obtain ⟨op, q, q', hop, hopcode, -⟩ := getElem?_of_encode h hi
    -- the last instruction is the return
    have hip : ip = size front := by omega
    rw [hip, getElem?_reals_return, Option.some.injEq] at hop
    rw [← hop] at hopcode
    cases i
    cases hopcode
    cases hflow

theorem exists_encode (p : Pools) (h : ∀ n o l, (reals rest)[n]? = some (.jump o l) →
      ∃ q, position? l 0 ops = some q ∧ (o.isRelative = true → index + n < q)) :
    ∃ code last, encode ops index p rest = .ok (code, last) := by
  induction rest generalizing index p with
  | nil => exact ⟨[], p, rfl⟩
  | cons op rest ih =>
    cases hop : op.opcode with
    | none =>
      rw [reals_cons_of_marker hop] at h
      rw [encode_cons_of_marker hop]
      exact ih p h
    | some opcode =>
      have hreal := isReal_of_opcode hop
      rw [reals_cons_of_isReal hreal] at h
      obtain ⟨arg, p', harg⟩ : ∃ arg p', argument ops index p op = .ok (arg, p') := by
        cases op with
        | jump o l =>
          obtain ⟨q, hq, hforward⟩ := h 0 o l rfl
          rw [argument, jumpArg, hq]
          cases hrel : o.isRelative with
          | false => exact ⟨_, p, rfl⟩
          | true =>
            have := hforward hrel
            dsimp only
            rw [if_pos rfl, if_neg (by omega)]
            exact ⟨_, p, rfl⟩
        | _ => exact ⟨_, _, rfl⟩
      have hrest : ∀ n o l, (reals rest)[n]? = some (.jump o l) →
          ∃ q, position? l 0 ops = some q ∧ (o.isRelative = true → index + 1 + n < q) := by
        intro n o l hl
        obtain ⟨q, hq, hforward⟩ := h (n + 1) o l hl
        exact ⟨q, hq, fun hrel => by have := hforward hrel; omega⟩
      obtain ⟨code, last, htail⟩ := ih p' hrest
      exact ⟨_, last, (encode_cons_eq_ok_iff hop).2 ⟨arg, p', code, harg, htail, rfl⟩⟩

end Bytewright
