import Bytewright.Proofs.Evaluate.Carry
import Bytewright.Proofs.Generator.Region

/-!
# Where regions lie

Whatever the body appends, the instructions of a region lie in the finished unit one behind the
other, and its labels stand at the places of their marks.
-/

namespace Bytewright

open Assemble

/-! ### Emitted regions -/

namespace Generator

variable {body : Emit Unit} {g g' : Generator}

/-- The body only adds operations. -/
def Extends (body : Emit Unit) : Prop := ∀ g g', body g = .ok () g' → g.ops <+: g'.ops

theorem ops_of_bracket {opening closing : Stream} (hbody : Extends body)
    (h : bracket opening closing body g = .ok () g') :
    ∃ ops, g'.ops = g.ops ++ (opening ++ (ops ++ closing)) := by
  rw [bracket] at h
  split at h
  · next g₁ hg₁ =>
    cases h
    obtain ⟨ops, hops⟩ := hbody _ _ hg₁
    refine ⟨ops, ?_⟩
    simp only [append, ← hops, List.append_assoc]
  · cases h

theorem carries_of_bracket {opening closing after : Stream} {fileName : String} {header : Header}
    {c : Code} (hbody : Extends body) (h : bracket opening closing body g = .ok () g')
    (hcode : assemble fileName (g'.ops ++ after) header = .ok c) (hc : c.Addressable)
    (hopening : ∀ k, .const k ∉ opening) (hclosing : ∀ k, .const k ∉ closing) :
    Carries c (placeIn (g'.ops ++ after)) (size g.ops) opening ∧
      Carries c (placeIn (g'.ops ++ after)) (size g'.ops - size closing) closing ∧
      size closing ≤ size g'.ops := by
  obtain ⟨ops, hops⟩ := ops_of_bracket hbody h
  have hassembled := assemble_eq_ok_iff.1 hcode
  have hsize : size g'.ops = size (g.ops ++ opening ++ ops) + size closing := by
    rw [← size_append, hops]
    simp
  rw [hsize, Nat.add_sub_cancel]
  refine ⟨?_, ?_, Nat.le_add_left _ _⟩
  · exact hassembled.carries_between hc g.ops opening (ops ++ closing ++ after) (by simp [hops])
      fun k hk => absurd hk (hopening k)
  · exact hassembled.carries_between hc (g.ops ++ opening ++ ops) closing after (by simp [hops])
      fun k hk => absurd hk (hclosing k)

end Generator

end Bytewright
