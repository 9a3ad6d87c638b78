import Bytewright.Proofs.Evaluate.Carry
import Bytewright.Proofs.Source.Size
import Bytewright.Proofs.Stream.Congruence

/-!
# Emitted streams at other labels

An allocator that has handed out more labels shifts all of them.  So the stream of a suite is
congruent to itself wherever it is emitted.
-/

namespace Bytewright

open Assemble List

/-! ### Labels -/

def Labels.shift (n : Nat) (ls : Labels) : Labels := ⟨ls.allocated + n⟩

def shiftResult (n : Nat) (r : Stream × Labels) : Stream × Labels :=
  (r.1.map (Op.shift n), r.2.shift n)

@[simp] theorem Labels.fresh_shift (n : Nat) (ls : Labels) :
    (ls.shift n).fresh = (ls.fresh.1.shift n, ls.fresh.2.shift n) := by
  simp [Labels.shift, Labels.fresh, Label.shift, Nat.add_right_comm]

mutual

theorem Expr.emit_shift (n : Nat) :
    ∀ (e : Expr) (ls : Labels), e.emit (ls.shift n) = shiftResult n (e.emit ls)
  | .literal _, ls | .name _, ls => by simp [Expr.emit, shiftResult, Op.shift]
  | .attribute obj attr, ls => by simp [Expr.emit, shiftResult, Op.shift, Expr.emit_shift n obj]
  | .call func args kwargs, ls => by
    simp [Expr.emit, shiftResult, Op.shift, Expr.emit_shift n func, emitAll_shift n args,
      emitKeywords_shift n kwargs]
  | .tuple items, ls => by
    cases h : constants? items <;>
      simp [Expr.emit, shiftResult, Op.shift, emitAll_shift n items, h]
  | .list items, ls => by simp [Expr.emit, shiftResult, Op.shift, emitAll_shift n items]
  | .dict pairs, ls => by simp [Expr.emit, shiftResult, Op.shift, emitPairs_shift n pairs]
  | .negate operand, ls | .not operand, ls => by
    simp [Expr.emit, shiftResult, Op.shift, Expr.emit_shift n operand]
  | .subscript left right, ls | .binary _ left right, ls | .compare _ left right, ls => by
    simp [Expr.emit, shiftResult, Op.shift, Expr.emit_shift n left, Expr.emit_shift n right]
  | .ifElse cond then_ else_, ls => by
    simp [Expr.emit, shiftResult, Op.shift, Expr.emit_shift n cond, Expr.emit_shift n then_,
      Expr.emit_shift n else_]

theorem emitAll_shift (n : Nat) :
    ∀ (es : List Expr) (ls : Labels), emitAll es (ls.shift n) = shiftResult n (emitAll es ls)
  | [], ls => by simp [emitAll, shiftResult]
  | e :: es, ls => by simp [emitAll, shiftResult, Expr.emit_shift n e, emitAll_shift n es]

theorem emitKeywords_shift (n : Nat) : ∀ (es : List (String × Expr)) (ls : Labels),
    emitKeywords es (ls.shift n) = shiftResult n (emitKeywords es ls)
  | [], ls => by simp [emitKeywords, shiftResult]
  | (x, e) :: es, ls => by
    simp [emitKeywords, shiftResult, Op.shift, Expr.emit_shift n e, emitKeywords_shift n es]

theorem emitPairs_shift (n : Nat) : ∀ (es : List (Expr × Expr)) (ls : Labels),
    emitPairs es (ls.shift n) = shiftResult n (emitPairs es ls)
  | [], ls => by simp [emitPairs, shiftResult]
  | (key, value) :: es, ls => by
    simp [emitPairs, shiftResult, Op.shift, Expr.emit_shift n key, Expr.emit_shift n value,
      emitPairs_shift n es]

end

theorem Target.emit_shift (n : Nat) (t : Target) (ls : Labels) :
    t.emit (ls.shift n) = shiftResult n (t.emit ls) := by
  cases t <;> simp [Target.emit, shiftResult, Op.shift, Expr.emit_shift]

theorem Action.emit_shift (n : Nat) (a : Action) (ls : Labels) :
    a.emit (ls.shift n) = shiftResult n (a.emit ls) := by
  cases a <;> simp [Action.emit, shiftResult, Op.shift, Expr.emit_shift, Target.emit_shift]

theorem emitSuite_shift (n : Nat) (body : List Stmt) (ls : Labels) :
    emitSuite body (ls.shift n) = shiftResult n (emitSuite body ls) := by
  induction body generalizing ls with
  | nil => rfl
  | cons s body ih =>
    simp [emitSuite, Stmt.emit, shiftResult, Op.shift, Action.emit_shift, ih]

theorem emitSuite_eq_map_shift (body : List Stmt) (ls : Labels) :
    (emitSuite body ls).1 = (emitSuite body {}).1.map (Op.shift ls.allocated) := by
  have hshift : ls = Labels.shift ls.allocated {} := by simp [Labels.shift]
  conv_lhs => rw [hshift, emitSuite_shift]
  rfl

theorem size_emitSuite_eq (body : List Stmt) (ls : Labels) :
    size (emitSuite body ls).1 = size (emitSuite body {}).1 := by
  rw [emitSuite_eq_map_shift, size_shift]

variable {body : List Stmt} {e : Expr}

theorem congruent_emitSuite (hbody : ∀ s ∈ body, s.Callable) (ls : Labels)
    (hsize : size (emitSuite body {}).1 < 4294967296) :
    Congruent (emitSuite body {}).1 (emitSuite body ls).1 := by
  rw [emitSuite_eq_map_shift body ls]
  exact congruent_shift _ fun l => ((piece_emitSuite hbody {} hsize).marked l).2

theorem emitSuite_append (a b : List Stmt) (ls : Labels) :
    emitSuite (a ++ b) ls = ((emitSuite a ls).1 ++ (emitSuite b (emitSuite a ls).2).1,
      (emitSuite b (emitSuite a ls).2).2) := by
  induction a generalizing ls with
  | nil => rfl
  | cons s a ih => simp [emitSuite, ih]

/-! ### Constants -/

mutual

theorem Const.isData_eq_of_sameAs : ∀ {a b : Const}, a.sameAs b = true → a.isData = b.isData
  | .none, .none, _ | .bool _, .bool _, _ | .int _, .int _, _ | .float _, .float _, _
  | .str _, .str _, _ | .code _, .code _, _ => rfl
  | .tuple _, .tuple _, h => allData_eq_of_sameList h

theorem allData_eq_of_sameList :
    ∀ {as bs : List Const}, sameList as bs = true → allData as = allData bs
  | [], [], _ => rfl
  | a :: as, b :: bs, h => by
    simp only [sameList, Bool.and_eq_true] at h
    rw [allData, allData, Const.isData_eq_of_sameAs h.1, allData_eq_of_sameList h.2]

end

/-- No constant of the stream is a code unit. -/
def HasData (ops : Stream) : Prop := ∀ k, .const k ∈ ops → k.isData = true

variable {es : List Expr} {ts : List Located}

@[simp] theorem hasData_nil : HasData [] := nofun

@[simp] theorem hasData_append {a b : Stream} : HasData (a ++ b) ↔ HasData a ∧ HasData b := by
  simp only [HasData, mem_append, or_imp, forall_and]

@[simp] theorem hasData_cons {op : Op} {ops : Stream} :
    HasData (op :: ops) ↔ (∀ k, op = .const k → k.isData = true) ∧ HasData ops := by
  simp only [HasData, mem_cons, or_imp, forall_and, eq_comm]

structure Expr.HasData (e : Expr) : Prop where
  emit : ∀ ls, Bytewright.HasData (e.emit ls).1
  constant : ∀ c, e.constant? = some c → c.isData = true

def Phrase.HasData : Phrase → Prop
  | .atom e | .primary e | .unary e | .product e | .sum e | .comparison e | .negation e | .full e
  | .several e => e.HasData
  | .items es => ∀ e ∈ es, e.HasData
  | .pairs ps => ∀ p ∈ ps, p.1.HasData ∧ p.2.HasData
  | .arguments args kwargs => (∀ e ∈ args, e.HasData) ∧ ∀ p ∈ kwargs, p.2.HasData

theorem hasData_emitAll (h : ∀ e ∈ es, e.HasData) (ls : Labels) : HasData (emitAll es ls).1 := by
  induction es generalizing ls with
  | nil => simp [emitAll]
  | cons e es ih =>
    obtain ⟨he, hes⟩ := forall_mem_cons.1 h
    simp [emitAll, he.emit, ih hes]

theorem hasData_emitKeywords {es : List (String × Expr)} (h : ∀ p ∈ es, p.2.HasData)
    (ls : Labels) : HasData (emitKeywords es ls).1 := by
  induction es generalizing ls with
  | nil => simp [emitKeywords]
  | cons p es ih =>
    obtain ⟨hp, hes⟩ := forall_mem_cons.1 h
    simp [emitKeywords, hp.emit, ih hes, Const.isData]

theorem hasData_emitPairs {es : List (Expr × Expr)} (h : ∀ p ∈ es, p.1.HasData ∧ p.2.HasData)
    (ls : Labels) : HasData (emitPairs es ls).1 := by
  induction es generalizing ls with
  | nil => simp [emitPairs]
  | cons p es ih =>
    obtain ⟨hp, hes⟩ := forall_mem_cons.1 h
    simp [emitPairs, hp.1.emit, hp.2.emit, ih hes]

theorem allData_of_constants? (h : ∀ e ∈ es, e.HasData) {cs : List Const}
    (hcs : constants? es = some cs) : allData cs = true := by
  induction es generalizing cs with
  | nil =>
    cases hcs
    rfl
  | cons e es ih =>
    obtain ⟨he, hes⟩ := forall_mem_cons.1 h
    rw [constants?] at hcs
    split at hcs
    · next c cs' hc hcs' =>
      cases hcs
      rw [allData, he.constant c hc, ih hes hcs']
      rfl
    · cases hcs

theorem Expr.HasData.of_emit (hconstant : e.constant? = none)
    (hemit : ∀ ls, Bytewright.HasData (e.emit ls).1) : e.HasData where
  emit := hemit
  constant c hc := by rw [hconstant] at hc; cases hc

theorem Expr.hasData_literal {c : Const} (hc : c.isData = true) : (Expr.literal c).HasData where
  emit ls := by simpa [Expr.emit] using hc
  constant k hk := by cases hk; exact hc

theorem Expr.hasData_tuple (hes : ∀ e ∈ es, e.HasData) : (Expr.tuple es).HasData where
  emit ls := by
    cases hcs : constants? es with
    | some cs => simpa [Expr.emit, hcs, Const.isData] using allData_of_constants? hes hcs
    | none => simp [Expr.emit, hcs, hasData_emitAll hes]
  constant k hk := by
    obtain ⟨cs, hcs, rfl⟩ := Option.map_eq_some_iff.1 hk
    exact allData_of_constants? hes hcs

theorem Spells.hasData {p : Phrase} (h : Spells p ts) : p.HasData := by
  induction h with
  | integer | float | strings | none | true | false | minusInteger | minusFloat =>
    exact Expr.hasData_literal rfl
  | name => exact .of_emit rfl fun ls => by simp [Expr.emit]
  | unit => exact Expr.hasData_tuple (by simp)
  | parens hl h hr ih
  | ofAtom h ih | ofPrimary h ih | ofUnary h ih | ofProduct h ih | ofSum h ih | ofComparison h ih
  | ofNegation h ih | one h ih =>
    exact ih
  | list hl h hr ih => exact .of_emit rfl fun ls => by simp [Expr.emit, hasData_emitAll ih]
  | dict hl h hr ih => exact .of_emit rfl fun ls => by simp [Expr.emit, hasData_emitPairs ih]
  | member h hd ht ih | minus ht h hne ih | not ht h ih =>
    exact .of_emit rfl fun ls => by simp [Expr.emit, ih.emit]
  | call h hl hargs hr hdistinct hargsLength hkwargsLength ih ihargs =>
    exact .of_emit rfl fun ls => by
      simp [Expr.emit, ih.emit, hasData_emitAll ihargs.1, hasData_emitKeywords ihargs.2]
  | subscript h hl hb hr iha ihb | times ha ht hop hb iha ihb | plus ha ht hop hb iha ihb
  | compare ha ht hop hb iha ihb =>
    exact .of_emit rfl fun ls => by simp [Expr.emit, iha.emit, ihb.emit]
  | ifElse hthen hi hcond hj helse ihthen ihcond ihelse =>
    exact .of_emit rfl fun ls => by simp [Expr.emit, ihcond.emit, ihthen.emit, ihelse.emit]
  | tuple h hk hes ih ihes => exact Expr.hasData_tuple (forall_mem_cons.2 ⟨ih, ihes⟩)
  | noItem | noPair | noArgument => simp [Phrase.HasData]
  | item h hk hes ih ihes => exact forall_mem_cons.2 ⟨ih, ihes⟩
  | lastPair hkey hc hvalue ihkey ihvalue => simpa [Phrase.HasData] using ⟨ihkey, ihvalue⟩
  | pair hkey hc hvalue hk hps ihkey ihvalue ihps =>
    exact forall_mem_cons.2 ⟨⟨ihkey, ihvalue⟩, ihps⟩
  | lastItem h ih | lastArgument h ih | lastKeyword ht ha h ih => simpa [Phrase.HasData] using ih
  | argument h hk hargs ih ihargs =>
    exact ⟨forall_mem_cons.2 ⟨ih, ihargs.1⟩, ihargs.2⟩
  | keyword ht ha h hk hkwargs ih ihkwargs =>
    exact ⟨by simp, forall_mem_cons.2 ⟨ih, ihkwargs.2⟩⟩

theorem Expr.HasData.emit_target (he : e.HasData) {target : Target} (h : e.target? = some target)
    (ls : Labels) : Bytewright.HasData (target.emit ls).1 := by
  have hparts := he.emit ls
  unfold Expr.target? at h
  split at h <;> cases h
  · simp [Target.emit]
  · simpa [Target.emit, Expr.emit] using hparts
  · simpa [Target.emit, Expr.emit] using hparts

theorem SpellsAction.hasData {a : Action} (h : SpellsAction a ts) (ls : Labels) :
    HasData (a.emit ls).1 := by
  cases h with
  | pass | delete => simp [Action.emit]
  | raise ht h | expr h => simpa [Action.emit] using h.hasData.emit ls
  | assign h htarget ha hvalue =>
    simpa [Action.emit] using ⟨hvalue.hasData.emit ls, h.hasData.emit_target htarget _⟩

theorem SpellsSuite.hasData (h : SpellsSuite body ts) (ls : Labels) :
    HasData (emitSuite body ls).1 := by
  induction h generalizing ls with
  | done h => simp [emitSuite]
  | stmt hbefore hs hrest hnext ih => simpa [emitSuite, Stmt.emit] using ⟨hs.1.hasData ls, ih _⟩

theorem hasData_of_parseStatements {text : String} (h : parseStatements text = .ok body)
    (ls : Labels) : HasData (emitSuite body ls).1 := by
  obtain ⟨ts, hbody, -⟩ := spellsSuite_of_parseStatements h
  exact hbody.hasData ls

end Bytewright
