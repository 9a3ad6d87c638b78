import Bytewright.Proofs.Machine.InRange

/-!
# Arguments and parameters

Arguments are bound to parameters in several phases that fill one row of slots.
-/

namespace Bytewright

open List

/-! ### The reference -/

def CodeOf.surplus (c : Code) (kwargs : Keywords) : Keywords :=
  kwargs.filter fun p => !c.params.contains p.1

namespace FunctionOf

/-- The arguments fit the parameters: none is too many, unknown, given twice or missing. -/
@[mk_iff]
structure Accepts (f : Function) (args : List Value) (kwargs : Keywords) : Prop where
  room : args.length ≤ f.code.argCount.toNat ∨ f.code.takesRest = true
  unfilled : ∀ p ∈ kwargs, p.1 ∉ f.code.params.take args.length
  once : kwargs.Pairwise fun p q => q.1 ∈ f.code.params → p.1 ≠ q.1
  known : ∀ p ∈ kwargs, p.1 ∈ f.code.params ∨ f.code.takesExtra = true
  complete : ∀ i < f.code.argCount.toNat, i < args.length ∨
    (∃ p ∈ kwargs, f.code.params[i]? = some p.1) ∨ f.code.argCount.toNat - f.defaults.length ≤ i

instance (f : Function) (args : List Value) (kwargs : Keywords) :
    Decidable (f.Accepts args kwargs) :=
  decidable_of_iff' _ (accepts_iff f args kwargs)

/-- The default of parameter `i`. -/
def default? (f : Function) (i : Nat) : Option Value :=
  f.defaults.reverse[f.code.argCount.toNat - 1 - i]?

/-- What the call gives parameter `i`: by position, by name or by default. -/
def given? (f : Function) (args : List Value) (kwargs : Keywords) (i : Nat) : Option Value :=
  (args[i]?.or (f.code.params[i]?.bind fun x => kwargs.lookup x)).or (f.default? i)

/-- A parameter has its positional argument, or else the keyword argument that names it, or else its
default; surplus arguments are collected in the order of the call, and all other slots are open. -/
structure Receives (f : Function) (args : List Value) (kwargs : Keywords) (s : Store)
    (frame : Frame) (s' : Store) : Prop where
  length_eq : frame.fast.length = f.code.varNames.length
  param : ∀ i < f.code.argCount.toNat, ∃ v, f.given? args kwargs i = some v ∧
    frame.fast[i]? = some (some v)
  rest : f.code.takesRest = true →
    frame.fast[f.code.argCount.toNat]? = some (some (.tuple (args.drop f.code.argCount.toNat)))
  extra : f.code.takesExtra = true →
    frame.fast[f.code.argCount.toNat + f.code.takesRest.toNat]? =
        some (some (.dict ⟨s.dicts.size⟩)) ∧
      s'.dict ⟨s.dicts.size⟩ = (f.code.surplus kwargs).map fun p => (.str p.1, p.2)
  others : ∀ i, f.code.argumentSlots ≤ i → i < f.code.varNames.length →
    frame.fast[i]? = some none

end FunctionOf

/-! ### Keywords -/

variable {e : Failure}

section Keywords

variable {c : Code} {kwargs : Keywords} {slots : List (Option Value)}
  {extra : Keywords} {r : List (Option Value) × Keywords}

structure CodeOf.Suits (c : Code) (kwargs : Keywords) (slots : List (Option Value)) :
    Prop where
  unfilled : ∀ p ∈ kwargs, ∀ i : Nat, c.params[i]? = some p.1 → slots[i]? = some none
  once : kwargs.Pairwise fun p q => q.1 ∈ c.params → p.1 ≠ q.1
  known : ∀ p ∈ kwargs, p.1 ∈ c.params ∨ c.takesExtra = true

def CodeOf.withKeywords (c : Code) (kwargs : Keywords) (slots : List (Option Value)) :
    List (Option Value) :=
  List.zipWith (fun x slot => slot.or (kwargs.lookup x)) c.params slots

theorem CodeOf.length_withKeywords :
    (c.withKeywords kwargs slots).length = min c.params.length slots.length :=
  length_zipWith

theorem CodeOf.getElem?_withKeywords {i : Nat} {slot : Option Value} (h : slots[i]? = some slot) :
    (c.withKeywords kwargs slots)[i]? = c.params[i]?.map fun x => slot.or (kwargs.lookup x) := by
  rw [withKeywords, getElem?_zipWith, h]
  cases c.params[i]? <;> rfl

theorem CodeOf.withKeywords_nil (h : slots.length = c.params.length) :
    c.withKeywords [] slots = slots := by
  refine ext_getElem? fun i => ?_
  cases hi : slots[i]? with
  | none =>
    rw [getElem?_eq_none_iff] at hi ⊢
    rw [length_withKeywords]
    omega
  | some slot =>
    have hlt : i < c.params.length := h ▸ (List.getElem?_eq_some_iff.1 hi).1
    rw [getElem?_withKeywords hi, List.getElem?_eq_getElem hlt]
    simp

section Cons

variable {key : String} {v : Value} {i : Nat}

theorem eq_of_getElem?_params (hparams : c.params.Nodup) {j : Nat} (hi : c.params[i]? = some key)
    (hj : c.params[j]? = some key) : j = i := by
  obtain ⟨hjlt, hjkey⟩ := List.getElem?_eq_some_iff.1 hj
  obtain ⟨hilt, hikey⟩ := List.getElem?_eq_some_iff.1 hi
  exact hparams.getElem_inj_iff.1 (hjkey.trans hikey.symm)

theorem CodeOf.withKeywords_cons (hparams : c.params.Nodup) (hi : c.params[i]? = some key)
    (hslot : slots[i]? = some none) :
    c.withKeywords ((key, v) :: kwargs) slots = c.withKeywords kwargs (slots.set i (some v)) := by
  refine List.ext_getElem? fun j => ?_
  have hlt := (List.getElem?_eq_some_iff.1 hslot).1
  by_cases hj : j = i
  · subst hj
    rw [getElem?_withKeywords hslot, getElem?_withKeywords (List.getElem?_set_self hlt), hi]
    simp
  · cases hother : slots[j]? with
    | none =>
      have hle := getElem?_eq_none_iff.1 hother
      rw [getElem?_eq_none_iff.2 (by rw [length_withKeywords]; omega),
        getElem?_eq_none_iff.2 (by rw [length_withKeywords, length_set]; omega)]
    | some slot =>
      have hset : (slots.set i (some v))[j]? = some slot := by
        rw [getElem?_set_ne (Ne.symm hj), hother]
      rw [getElem?_withKeywords hother, getElem?_withKeywords hset]
      cases hx : c.params[j]? with
      | none => rfl
      | some x =>
        have hne : x ≠ key := by
          rintro rfl
          exact hj (eq_of_getElem?_params hparams hi hx)
        rw [Option.map_some, Option.map_some, lookup_cons, beq_eq_false_iff_ne.2 hne]

theorem CodeOf.withKeywords_cons_of_notMem (hkey : key ∉ c.params) :
    c.withKeywords ((key, v) :: kwargs) slots = c.withKeywords kwargs slots := by
  refine ext_getElem? fun j => ?_
  rw [withKeywords, withKeywords, getElem?_zipWith, getElem?_zipWith]
  cases hx : c.params[j]? with
  | none => rfl
  | some x =>
    have hne : x ≠ key := by
      rintro rfl
      exact hkey (mem_of_getElem? hx)
    cases slots[j]? with
    | none => rfl
    | some slot => simp only [lookup_cons, beq_eq_false_iff_ne.2 hne]

theorem CodeOf.surplus_cons (hkey : key ∈ c.params) :
    c.surplus ((key, v) :: kwargs) = c.surplus kwargs :=
  filter_cons_of_neg (by simpa using hkey)

theorem CodeOf.surplus_cons_of_notMem (hkey : key ∉ c.params) :
    c.surplus ((key, v) :: kwargs) = (key, v) :: c.surplus kwargs :=
  filter_cons_of_pos (by simpa using hkey)

theorem CodeOf.suits_cons_iff (hparams : c.params.Nodup) (hi : c.params[i]? = some key)
    (hlt : i < slots.length) : c.Suits ((key, v) :: kwargs) slots ↔
      slots[i]? = some none ∧ c.Suits kwargs (slots.set i (some v)) := by
  have hkey : key ∈ c.params := mem_of_getElem? hi
  constructor
  · rintro ⟨hunfilled, honce, hknown⟩
    refine ⟨hunfilled _ (mem_cons_self ..) i hi, fun p hp j hj => ?_, honce.tail,
      fun p hp => hknown p (mem_cons_of_mem _ hp)⟩
    have hne : i ≠ j := by
      rintro rfl
      obtain rfl : key = p.1 := Option.some.inj (hi.symm.trans hj)
      exact (pairwise_cons.1 honce).1 p hp hkey rfl
    rw [getElem?_set_ne hne]
    exact hunfilled p (mem_cons_of_mem _ hp) j hj
  · rintro ⟨hslot, hunfilled, honce, hknown⟩
    have hother (p : String × Value) (hp : p ∈ kwargs) (j : Nat) (hj : c.params[j]? = some p.1) :
        j ≠ i := by
      rintro rfl
      have hset := hunfilled p hp j hj
      rw [getElem?_set_self hlt] at hset
      cases hset
    refine ⟨fun p hp j hj => ?_, pairwise_cons.2 ⟨fun p hp _ heq => ?_, honce⟩,
      fun p hp => ?_⟩
    · rcases mem_cons.1 hp with rfl | hp
      · rwa [eq_of_getElem?_params hparams hi hj]
      · rw [← getElem?_set_ne (hother p hp j hj).symm]
        exact hunfilled p hp j hj
    · exact hother p hp i (heq ▸ hi) rfl
    · rcases mem_cons.1 hp with rfl | hp
      · exact .inl hkey
      · exact hknown p hp

theorem CodeOf.suits_cons_iff_of_notMem (hkey : key ∉ c.params) :
    c.Suits ((key, v) :: kwargs) slots ↔ c.takesExtra = true ∧ c.Suits kwargs slots := by
  constructor
  · rintro ⟨hunfilled, honce, hknown⟩
    exact ⟨(hknown _ (mem_cons_self ..)).resolve_left hkey,
      fun p hp => hunfilled p (mem_cons_of_mem _ hp), honce.tail,
      fun p hp => hknown p (mem_cons_of_mem _ hp)⟩
  · rintro ⟨hextra, hunfilled, honce, hknown⟩
    have hfirst (p : String × Value) (hmem : p.1 ∈ c.params) : key ≠ p.1 := by
      rintro rfl
      exact hkey hmem
    refine ⟨fun p hp j hj => ?_, pairwise_cons.2 ⟨fun p _ => hfirst p, honce⟩, fun p hp => ?_⟩
    · rcases mem_cons.1 hp with rfl | hp
      · exact absurd (mem_of_getElem? hj) hkey
      · exact hunfilled p hp j hj
    · rcases mem_cons.1 hp with rfl | hp
      · exact .inr hextra
      · exact hknown p hp

end Cons

theorem bindKeywords_eq_ok_iff (hparams : c.params.Nodup)
    (hslots : slots.length = c.params.length) :
    bindKeywords c kwargs slots extra = .ok r ↔
      c.Suits kwargs slots ∧
        r = (c.withKeywords kwargs slots, extra.reverse ++ c.surplus kwargs) := by
  induction kwargs generalizing slots extra with
  | nil =>
    have hsuits : c.Suits [] slots := ⟨nofun, .nil, nofun⟩
    rw [bindKeywords, CodeOf.withKeywords_nil hslots, CodeOf.surplus, filter_nil,
      append_nil, Except.ok.injEq]
    exact ⟨fun h => ⟨hsuits, h.symm⟩, fun h => h.2.symm⟩
  | cons p kwargs ih =>
    obtain ⟨key, v⟩ := p
    rw [bindKeywords]
    cases hfind : c.params.findIdx? (· == key) with
    | none =>
      have hkey : key ∉ c.params := fun hmem => by
        simpa using findIdx?_eq_none_iff.1 hfind key hmem
      rw [CodeOf.suits_cons_iff_of_notMem hkey, CodeOf.surplus_cons_of_notMem hkey,
        CodeOf.withKeywords_cons_of_notMem hkey]
      cases hextra : c.takesExtra with
      | true =>
        simp only [if_true, true_and]
        rw [ih hslots]
        simp
      | false => simp
    | some i =>
      obtain ⟨hlt, hkey, -⟩ := findIdx?_eq_some_iff_getElem.1 hfind
      have hi : c.params[i]? = some key := by
        rw [getElem?_eq_getElem hlt, eq_of_beq hkey]
      have hlt' : i < slots.length := hslots ▸ hlt
      rw [CodeOf.suits_cons_iff hparams hi hlt', CodeOf.surplus_cons (mem_of_getElem? hi)]
      cases hslot : slots[i]? with
      | none => exact absurd (getElem?_eq_none_iff.1 hslot) (by omega)
      | some slot =>
        cases slot with
        | some w => simp [hslot]
        | none =>
          simp only [hslot, true_and]
          rw [ih (by rwa [length_set]), CodeOf.withKeywords_cons hparams hi hslot]

theorem surplus_of_bindKeywords (h : bindKeywords c kwargs slots extra = .ok r) :
    r.2 = extra.reverse ++ c.surplus kwargs := by
  induction kwargs generalizing slots extra with
  | nil =>
    cases h
    exact (append_nil _).symm
  | cons p kwargs ih =>
    obtain ⟨key, v⟩ := p
    rw [bindKeywords] at h
    split at h
    · next i hfind =>
      obtain ⟨hlt, hkey, -⟩ := findIdx?_eq_some_iff_getElem.1 hfind
      rw [CodeOf.surplus_cons (eq_of_beq hkey ▸ getElem_mem hlt)]
      split at h
      · cases h
      · exact ih h
    · next hfind =>
      have hkey : key ∉ c.params := fun hmem => by
        simpa using findIdx?_eq_none_iff.1 hfind key hmem
      split_ifs at h
      rw [CodeOf.surplus_cons_of_notMem hkey, ih h]
      simp

theorem kind_of_bindKeywords (h : bindKeywords c kwargs slots extra = .error e) :
    e.kind = "TypeError" := by
  induction kwargs generalizing slots extra with
  | nil => cases h
  | cons p kwargs ih =>
    rw [bindKeywords] at h
    split at h
    · split at h
      · cases h
        rfl
      · exact ih h
    · split_ifs at h
      · exact ih h
      · cases h
        rfl

end Keywords

/-! ### Defaults -/

section Defaults

variable {c : Code} {params : List String} {slots defaults : List (Option Value)}

theorem kind_of_bindDefaults (h : bindDefaults c params slots defaults = .error e) :
    e.kind = "TypeError" := by
  fun_induction bindDefaults c params slots defaults with
  | case1 x params slot slots default defaults v hvalue ih =>
    cases hrest : bindDefaults c params slots defaults with
    | error failure =>
      rw [hrest] at h
      cases h
      exact ih hrest
    | ok vs =>
      rw [hrest] at h
      cases h
  | case2 =>
    cases h
    rfl
  | case3 => cases h

end Defaults

/-! ### Arguments -/

theorem Direct.getElem?_givenSlots (c : Code) (args : List Value) {i : Nat}
    (hi : i < c.argCount.toNat) : (givenSlots c args)[i]? = some args[i]? := by
  rw [givenSlots, getElem?_append, length_map, length_take]
  split_ifs with hlt
  · rw [getElem?_map, getElem?_take_of_lt hi, getElem?_eq_getElem (by omega)]
    rfl
  · rw [openSlots, getElem?_replicate_of_lt (by omega), getElem?_eq_none (by omega)]

namespace FunctionOf

open Direct

variable {f : Function} {args : List Value} {kwargs : Keywords} {b : Binding}

section

variable (hdefaults : f.defaults.length ≤ f.code.argCount.toNat)
include hdefaults

theorem default?_eq {i : Nat} (hi : i < f.code.argCount.toNat) :
    f.default? i = if f.code.argCount.toNat - f.defaults.length ≤ i then
      f.defaults[i - (f.code.argCount.toNat - f.defaults.length)]? else none := by
  rw [default?]
  split_ifs with hle
  · have hindex : f.defaults.length - 1 - (f.code.argCount.toNat - 1 - i) =
        i - (f.code.argCount.toNat - f.defaults.length) := by omega
    rw [getElem?_reverse (by omega), hindex]
  · exact getElem?_eq_none (by rw [length_reverse]; omega)

theorem isSome_default?_iff {i : Nat} (hi : i < f.code.argCount.toNat) :
    (f.default? i).isSome ↔ f.code.argCount.toNat - f.defaults.length ≤ i := by
  rw [default?, isSome_getElem?, length_reverse]
  omega

theorem isSome_given?_iff {i : Nat} (hi : i < f.code.argCount.toNat) :
    (f.given? args kwargs i).isSome ↔ i < args.length ∨
      (∃ p ∈ kwargs, f.code.params[i]? = some p.1) ∨
        f.code.argCount.toNat - f.defaults.length ≤ i := by
  have hkeyword : (f.code.params[i]?.bind fun x => kwargs.lookup x).isSome ↔
      ∃ p ∈ kwargs, f.code.params[i]? = some p.1 := by
    cases f.code.params[i]? with
    | none => simp
    | some x => simp
  rw [given?, Option.isSome_or, Option.isSome_or, Bool.or_eq_true, Bool.or_eq_true,
    isSome_getElem?, hkeyword, isSome_default?_iff hdefaults hi, or_assoc]

theorem zipWith_or_eq (hc : f.code.argCount.toNat ≤ f.code.varNames.length) :
    List.zipWith Option.or (f.code.withKeywords kwargs (givenSlots f.code args))
        (alignDefaults f.code.argCount.toNat f.defaults) =
      (List.range f.code.argCount.toNat).map (f.given? args kwargs) := by
  refine ext_getElem? fun i => ?_
  rw [getElem?_zipWith, getElem?_map]
  by_cases hi : i < f.code.argCount.toNat
  · have hx : i < f.code.params.length := by rwa [CodeOf.length_params _ hc]
    rw [CodeOf.getElem?_withKeywords (getElem?_givenSlots f.code args hi),
      getElem?_alignDefaults hi, getElem?_range hi, Option.map_some, given?,
      getElem?_eq_getElem hx, default?_eq hdefaults hi]
    rfl
  · have hlength : (f.code.withKeywords kwargs (givenSlots f.code args)).length ≤ i := by
      rw [CodeOf.length_withKeywords, length_givenSlots]
      omega
    rw [getElem?_eq_none hlength, getElem?_eq_none (l := List.range _)
      (by rw [length_range]; omega)]
    rfl

end

theorem suits_givenSlots_iff (hc : f.code.argCount.toNat ≤ f.code.varNames.length) :
    f.code.Suits kwargs (givenSlots f.code args) ↔
      (∀ p ∈ kwargs, p.1 ∉ f.code.params.take args.length) ∧
      (kwargs.Pairwise fun p q => q.1 ∈ f.code.params → p.1 ≠ q.1) ∧
      ∀ p ∈ kwargs, p.1 ∈ f.code.params ∨ f.code.takesExtra = true := by
  have hunfilled (x : String) : x ∉ f.code.params.take args.length ↔
      ∀ i : Nat, f.code.params[i]? = some x → (givenSlots f.code args)[i]? = some none := by
    rw [mem_iff_getElem?]
    push Not
    refine forall_congr' fun i => ?_
    rw [getElem?_take]
    by_cases hi : i < f.code.argCount.toNat
    · rw [getElem?_givenSlots f.code args hi, Option.some.injEq, getElem?_eq_none_iff]
      by_cases hlt : i < args.length
      · simp [hlt, not_le.2 hlt]
      · simp [hlt, not_lt.1 hlt]
    · have hnone : f.code.params[i]? = none :=
        getElem?_eq_none (by rw [CodeOf.length_params _ hc]; omega)
      simp [hnone]
  constructor
  · rintro ⟨hopen, honce, hknown⟩
    exact ⟨fun p hp => (hunfilled p.1).2 (hopen p hp), honce, hknown⟩
  · rintro ⟨hopen, honce, hknown⟩
    exact ⟨fun p hp => (hunfilled p.1).1 (hopen p hp), honce, hknown⟩

theorem isSome_of_map_range {α : Type} {n : Nat} {g : Nat → Option α} {vs : List α}
    (h : (List.range n).map g = vs.map some) {i : Nat} (hi : i < n) : (g i).isSome := by
  have hmem : g i ∈ vs.map some := h ▸ mem_map_of_mem (mem_range.2 hi)
  obtain ⟨v, -, hv⟩ := mem_map.1 hmem
  rw [← hv]
  rfl

theorem extra_of_bindArguments (h : bindArguments f.code f.defaults args kwargs = .ok b) :
    b.extra = f.code.surplus kwargs := by
  obtain ⟨-, slots, hkeywords, -, -⟩ := exists_of_bindArguments h
  exact surplus_of_bindKeywords hkeywords

theorem bindArguments_eq_ok_iff (hnames : f.code.varNames.Nodup)
    (hc : f.code.argCount.toNat ≤ f.code.varNames.length)
    (hdefaults : f.defaults.length ≤ f.code.argCount.toNat) :
    bindArguments f.code f.defaults args kwargs = .ok b ↔
      f.Accepts args kwargs ∧
      b.params.map some = (List.range f.code.argCount.toNat).map (f.given? args kwargs) ∧
      b.rest = args.drop f.code.argCount.toNat ∧ b.extra = f.code.surplus kwargs := by
  have hparams : f.code.params.Nodup := hnames.sublist (take_sublist _ _)
  have hslots : (givenSlots f.code args).length = f.code.params.length := by
    rw [length_givenSlots, CodeOf.length_params _ hc]
  have hwith : (f.code.withKeywords kwargs (givenSlots f.code args)).length =
      f.code.params.length := by
    rw [CodeOf.length_withKeywords, hslots, Nat.min_self]
  have haligned : (alignDefaults f.code.argCount.toNat f.defaults).length =
      f.code.params.length := by
    rw [length_alignDefaults, CodeOf.length_params _ hc]
  constructor
  · intro h
    obtain ⟨hroom, slots, hkeywords, hvalues, hrest⟩ := exists_of_bindArguments h
    obtain ⟨hsuits, hbound⟩ := (bindKeywords_eq_ok_iff hparams hslots).1 hkeywords
    obtain ⟨rfl, hextra⟩ := Prod.mk.inj hbound
    have hgiven := (bindDefaults_eq_ok_iff hwith haligned).1 hvalues
    rw [zipWith_or_eq hdefaults hc] at hgiven
    obtain ⟨hunfilled, honce, hknown⟩ := (suits_givenSlots_iff hc).1 hsuits
    refine ⟨⟨hroom, hunfilled, honce, hknown, fun i hi => ?_⟩, hgiven.symm, hrest, hextra⟩
    rw [← isSome_given?_iff hdefaults hi]
    exact isSome_of_map_range hgiven hi
  · rintro ⟨haccepts, hgiven, hrest, hextra⟩
    have hmany : ¬(f.code.argCount.toNat < args.length ∧ (!f.code.takesRest) = true) := by
      rintro ⟨hlt, hnot⟩
      rcases haccepts.room with hle | htakes
      · omega
      · rw [htakes] at hnot
        cases hnot
    have hsuits := (suits_givenSlots_iff hc).2 ⟨haccepts.unfilled, haccepts.once, haccepts.known⟩
    have hvalues := (bindDefaults_eq_ok_iff (c := f.code) hwith haligned).2
      ((zipWith_or_eq hdefaults hc).trans hgiven.symm)
    rw [bindArguments_eq hmany, (bindKeywords_eq_ok_iff hparams hslots).2 ⟨hsuits, rfl⟩,
      Except.bind, hvalues, Except.bind, ← hrest, reverse_nil, nil_append, ← hextra]

theorem Accepts.exists_binding (haccepts : f.Accepts args kwargs) (hnames : f.code.varNames.Nodup)
    (hc : f.code.argCount.toNat ≤ f.code.varNames.length)
    (hdefaults : f.defaults.length ≤ f.code.argCount.toNat) :
    ∃ b, bindArguments f.code f.defaults args kwargs = .ok b := by
  let params := (List.range f.code.argCount.toNat).map fun i => (f.given? args kwargs i).getD .none
  refine ⟨⟨params, _, _⟩, (bindArguments_eq_ok_iff hnames hc hdefaults).2 ⟨haccepts, ?_, rfl, rfl⟩⟩
  rw [map_map]
  refine map_congr_left fun i hi => ?_
  have hi := mem_range.1 hi
  obtain ⟨v, hv⟩ := Option.isSome_iff_exists.1
    ((isSome_given?_iff hdefaults hi).2 (haccepts.complete i hi))
  rw [Function.comp_apply, hv, Option.getD_some]

theorem kind_of_bindArguments (h : bindArguments f.code f.defaults args kwargs = .error e) :
    e.kind = "TypeError" := by
  by_cases hmany : f.code.argCount.toNat < args.length ∧ (!f.code.takesRest) = true
  · rw [bindArguments, if_pos hmany] at h
    cases h
    rfl
  rw [bindArguments_eq hmany] at h
  cases hkeywords : bindKeywords f.code kwargs (givenSlots f.code args) [] with
  | error failure =>
    rw [hkeywords] at h
    cases h
    exact kind_of_bindKeywords hkeywords
  | ok bound =>
    rw [hkeywords, Except.bind] at h
    cases hvalues : bindDefaults f.code f.code.params bound.1
        (alignDefaults f.code.argCount.toNat f.defaults) with
    | error failure =>
      rw [hvalues] at h
      cases h
      exact kind_of_bindDefaults hvalues
    | ok values =>
      rw [hvalues] at h
      cases h

/-! ### Slots -/

theorem fast_frame (hb : b.params.length = f.code.argCount.toNat) (s : Store) :
    (f.frame b s).1.fast = b.params.map some ++ (restSlot f.code b.rest ++
      ((extraSlot f.code b.extra s).1 ++
        openSlots (f.code.varNames.length - f.code.argumentSlots))) := by
  rw [frame_eq hb, append_assoc (restSlot _ _)]
  rfl

theorem dicts_frame (f : Function) (b : Binding) (s : Store) :
    (f.frame b s).2.dicts = if f.code.takesExtra then
      s.dicts.push (b.extra.map fun p => (.str p.1, p.2)) else s.dicts := by
  unfold FunctionOf.frame
  dsimp only
  cases f.code.takesExtra <;> cases f.code.flags.contains .newLocals <;> rfl

theorem receives_frame (hslots : f.code.argumentSlots ≤ f.code.varNames.length)
    (hparams : b.params.map some =
      (List.range f.code.argCount.toNat).map (f.given? args kwargs))
    (hrest : b.rest = args.drop f.code.argCount.toNat) (hextra : b.extra = f.code.surplus kwargs)
    (s : Store) : f.Receives args kwargs s (f.frame b s).1 (f.frame b s).2 := by
  have hlength : b.params.length = f.code.argCount.toNat := by
    simpa using congrArg List.length hparams
  have hfast := fast_frame (f := f) hlength s
  have hrestLength := length_restSlot f.code b.rest
  have hextraLength := length_extraSlot f.code b.extra s
  have hbeyond {i : Nat} (hi : f.code.argCount.toNat ≤ i) : (f.frame b s).1.fast[i]? =
      (restSlot f.code b.rest ++ ((extraSlot f.code b.extra s).1 ++ openSlots
        (f.code.varNames.length - f.code.argumentSlots)))[i - f.code.argCount.toNat]? := by
    rw [hfast, getElem?_append_right (by rwa [length_map, hlength]), length_map,
      hlength]
  rw [CodeOf.argumentSlots] at hslots
  constructor
  · simp only [hfast, length_append, length_map, hlength, hrestLength, hextraLength,
      openSlots, length_replicate, CodeOf.argumentSlots]
    omega
  · intro i hi
    have hgiven : (b.params.map some)[i]? = some (f.given? args kwargs i) := by
      rw [hparams, getElem?_map, getElem?_range hi]
      rfl
    obtain ⟨v, hv⟩ := Option.isSome_iff_exists.1 (isSome_of_map_range hparams.symm hi)
    refine ⟨v, hv, ?_⟩
    rw [hfast, getElem?_append_left (by rw [length_map]; omega), hgiven, hv]
  · intro htakes
    rw [hbeyond le_rfl, Nat.sub_self, restSlot, if_pos htakes, hrest]
    rfl
  · intro htakes
    refine ⟨?_, by simp [Store.dict, dicts_frame, htakes, hextra]⟩
    rw [hbeyond (Nat.le_add_right ..), Nat.add_sub_cancel_left,
      getElem?_append_right hrestLength.le, hrestLength, Nat.sub_self, extraSlot,
      if_pos htakes]
    rfl
  · intro i hle hlt
    rw [CodeOf.argumentSlots] at hle
    rw [hbeyond (by omega), getElem?_append_right (by omega),
      getElem?_append_right (by omega), openSlots,
      getElem?_replicate_of_lt (by rw [CodeOf.argumentSlots]; omega)]

/-- A call of a function with distinct names, with slots for all its parameters and with no more
defaults than parameters, succeeds where the reference accepts it, and the slots of its frame hold
what they should.  Otherwise a `TypeError` is raised. -/
theorem bind_matches_reference (f : Function) (hnames : f.code.varNames.Nodup)
    (hslots : f.code.argumentSlots ≤ f.code.varNames.length)
    (hdefaults : f.defaults.length ≤ f.code.argCount.toNat) (args : List Value)
    (kwargs : Keywords) (s : Store) :
    (f.Accepts args kwargs → ∃ frame s', f.bind args kwargs s = .ok (frame, s') ∧
      f.Receives args kwargs s frame s') ∧
    (¬f.Accepts args kwargs → ∃ failure, f.bind args kwargs s = .error (.inl failure) ∧
      (s.failed failure).1.kind = "TypeError") := by
  have hc : f.code.argCount.toNat ≤ f.code.varNames.length := by
    rw [CodeOf.argumentSlots] at hslots
    omega
  rw [FunctionOf.bind, if_neg (Nat.not_lt.2 hslots)]
  cases hbind : bindArguments f.code f.defaults args kwargs with
  | ok b =>
    obtain ⟨haccepts, hparams, hrest, hextra⟩ :=
      (bindArguments_eq_ok_iff hnames hc hdefaults).1 hbind
    exact ⟨fun _ => ⟨_, _, rfl, receives_frame hslots hparams hrest hextra s⟩,
      fun hnot => absurd haccepts hnot⟩
  | error failure =>
    refine ⟨fun haccepts => ?_, fun _ => ⟨failure, rfl, kind_of_bindArguments hbind⟩⟩
    obtain ⟨b, hb⟩ := haccepts.exists_binding hnames hc hdefaults
    cases hbind.symm.trans hb

def gathering : Function where
  id := 0
  code :=
    { argCount := 2
      numLocals := 5
      stackSize := 1
      flags := Flags.varArgs.union .varKeywords
      code := [⟨.name .loadFast, 3⟩, ⟨.bare .returnValue, 0⟩]
      varNames := ["a", "b", "rest", "extra", "x"]
      fileName := "<raw>"
      name := "gathering"
      firstLine := 1 }
  defaults := [.int 5]
  globals := ⟨0⟩
  closure := []

/-- The first parameter may be given by name, between surplus keywords, but it has to be given. -/
theorem gathering_receives :
    (∃ frame s', gathering.bind [] [("k", .int 1), ("a", .int 2), ("l", .int 3)] {} =
        .ok (frame, s') ∧
      gathering.Receives [] [("k", .int 1), ("a", .int 2), ("l", .int 3)] {} frame s') ∧
    ∃ failure, gathering.bind [] [("k", .int 1)] {} = .error (.inl failure) ∧
      (({} : Store).failed failure).1.kind = "TypeError" :=
  ⟨(bind_matches_reference gathering (by decide) (by decide) (by decide) _ _ _).1 (by decide),
    (bind_matches_reference gathering (by decide) (by decide) (by decide) _ _ _).2 (by decide)⟩

end FunctionOf

end Bytewright
