import Bytewright.Proofs.Machine.Direct

/-!
# Direct accesses stay in range

A quotient is corrected only where it is not exact, and so far from the ends of the range, a
remainder only where it has the other sign than the divisor.  A negative index is added to a length
that it cannot exceed.
-/

namespace Bytewright

open Checked List

theorem CodeOf.length_params (c : Code) (hc : c.argCount.toNat ≤ c.varNames.length) :
    c.params.length = c.argCount.toNat := by
  rw [params, length_take, Nat.min_eq_left hc]

namespace Direct

variable {y n : Int} {x q : Int64} {α : Type} {s : Store} {b : Binding} {length : Nat} {obj : Value}

@[simp] theorem ok_bind {β : Type} (a : α) (f : α → Direct β) : (Except.ok a >>= f) = f a := rfl

@[simp] theorem pure_eq_ok (a : α) : (pure a : Direct α) = .ok a := rfl

/-! ### Words -/

theorem word_of_fits (h : Fits n) : word n = .ok (Int64.ofInt n) := by
  simp only [word, narrow?, if_pos h]

theorem toInt_ofInt_of_fits (h : Fits n) : (Int64.ofInt n).toInt = n :=
  toInt_of_narrow? (if_pos h)

theorem fits_toInt (w : Int64) : Fits w.toInt := ⟨w.le_toInt, w.toInt_lt⟩

theorem fdiv_eq_ite {x : Int} (hy : y ≠ 0) :
    x.fdiv y = if x.tmod y ≠ 0 ∧ (x < 0) ≠ (y < 0) then x.tdiv y - 1 else x.tdiv y := by
  rw [Int.fdiv_eq_tdiv]
  by_cases hdvd : y ∣ x
  · have hmod : x.tmod y = 0 := Int.tmod_eq_zero_of_dvd hdvd
    simp [hdvd, hmod]
  · have hmod : x.tmod y ≠ 0 := fun h => hdvd (Int.dvd_of_tmod_eq_zero h)
    rcases lt_or_gt_of_ne hy with hneg | hpos
    · have hsign : y.sign = -1 := Int.sign_eq_neg_one_of_neg hneg
      by_cases hx : x < 0
      · simp [hdvd, hx, hneg, hsign, not_le.2 hx, not_le.2 hneg]
      · simp [hdvd, hx, hneg, hmod, not_lt.1 hx, not_le.2 hneg]
    · have hsign : y.sign = 1 := Int.sign_eq_one_of_pos hpos
      by_cases hx : x < 0
      · simp [hdvd, hx, hmod, hsign, not_le.2 hx, hpos.le]
      · simp [hdvd, hx, not_lt.1 hx, hpos.le]

theorem fmod_eq_ite {x : Int} (hy : y ≠ 0) :
    x.fmod y = if x.tmod y ≠ 0 ∧ (x.tmod y < 0) ≠ (y < 0) then x.tmod y + y else x.tmod y := by
  rw [Int.fmod_eq_tmod]
  by_cases hdvd : y ∣ x
  · have hmod : x.tmod y = 0 := Int.tmod_eq_zero_of_dvd hdvd
    simp [hdvd, hmod]
  · have hmod : x.tmod y ≠ 0 := fun h => hdvd (Int.dvd_of_tmod_eq_zero h)
    have hsign : x.tmod y < 0 ↔ x < 0 := by
      rw [← Int.sign_eq_neg_one_iff_neg, ← Int.sign_eq_neg_one_iff_neg (a := x), Int.sign_tmod,
        if_neg hdvd]
    rcases lt_or_gt_of_ne hy with hneg | hpos
    · by_cases hx : x < 0
      · simp [hdvd, hsign, hx, hneg, not_le.2 hx, not_le.2 hneg]
        omega
      · simp [hdvd, hsign, hx, hneg, hmod, not_lt.1 hx, not_le.2 hneg]
    · by_cases hx : x < 0
      · simp [hdvd, hsign, hx, hmod, not_le.2 hx, hpos.le]
      · simp [hdvd, hsign, hx, not_lt.1 hx, hpos.le]

theorem tdiv_bounds {x : Int} (hx : Fits x) (hmod : x.tmod y ≠ 0) :
    -4611686018427387904 ≤ x.tdiv y ∧ x.tdiv y ≤ 4611686018427387904 := by
  have hone : y.natAbs ≠ 1 := fun h => hmod (by
    rw [← Int.natAbs_eq_zero, Int.natAbs_tmod, h, Nat.mod_one])
  rcases Nat.eq_zero_or_pos y.natAbs with hzero | hpos
  · rw [Int.natAbs_eq_zero.1 hzero, Int.tdiv_zero]
    omega
  · have hle : (x.tdiv y).natAbs ≤ x.natAbs / 2 := by
      rw [Int.natAbs_tdiv]
      exact Nat.div_le_div_left (by omega) (by omega)
    obtain ⟨hlow, hhigh⟩ := hx
    omega

theorem natAbs_tmod_lt (x : Int) (hy : y ≠ 0) : (x.tmod y).natAbs < y.natAbs := by
  rw [Int.natAbs_tmod]
  exact Nat.mod_lt _ (Int.natAbs_pos.2 hy)

theorem fits_tmod (x : Int) (hy : y ≠ 0) (hfits : Fits y) : Fits (x.tmod y) := by
  have hlt := natAbs_tmod_lt x hy
  obtain ⟨hlow, hhigh⟩ := hfits
  exact ⟨by omega, by omega⟩

theorem toInt_ne_zero {w : Int64} (hw : w ≠ 0) : w.toInt ≠ 0 := fun h =>
  hw (Int64.toInt_inj.1 (h.trans Int64.toInt_zero.symm))

theorem toInt_ne_zero_iff {w : Int64} : w.toInt ≠ 0 ↔ w ≠ 0 :=
  ⟨fun h hw => h (by rw [hw]; rfl), toInt_ne_zero⟩

theorem rem_eq_ok {y : Int64} (hq : truncated? x y = some q) :
    ∃ r, rem x y = .ok r ∧ r.toInt = x.toInt.tmod y.toInt ∧ q.toInt = x.toInt.tdiv y.toInt ∧
      y ≠ 0 := by
  unfold truncated? at hq
  split at hq
  · cases hq
  · next hy =>
    have hword : word (x.toInt.tdiv y.toInt) = .ok q := by simp only [word, hq]
    have hmod := fits_tmod x.toInt (toInt_ne_zero hy) (fits_toInt y)
    refine ⟨Int64.ofInt (x.toInt.tmod y.toInt), ?_, toInt_ofInt_of_fits hmod,
      toInt_of_narrow? hq, hy⟩
    simp only [rem, if_neg hy, hword, word_of_fits hmod]
    rfl

theorem div?_eq_none {y : Int64} (hy : y ≠ 0) (hq : truncated? x y = none) : div? x y = none := by
  have hnot : ¬Fits (x.toInt.tdiv y.toInt) := by
    intro hfits
    rw [truncated?, if_neg hy, narrow?, if_pos hfits] at hq
    cases hq
  have hmod : x.toInt.tmod y.toInt = 0 := by
    by_contra hmod
    have hbounds := tdiv_bounds (fits_toInt x) hmod
    exact hnot ⟨by omega, by omega⟩
  rw [div?, fdiv_eq_ite (toInt_ne_zero hy), if_neg (by simp [hmod]), narrow?, if_neg hnot]

theorem fits_fdiv {y : Int64} (hq : truncated? x y = some q) : Fits (x.toInt.fdiv y.toInt) := by
  obtain ⟨-, -, -, hquot, hy⟩ := rem_eq_ok hq
  rw [fdiv_eq_ite (toInt_ne_zero hy)]
  split_ifs with hround
  · have hbounds := tdiv_bounds (fits_toInt x) hround.1
    exact ⟨by omega, by omega⟩
  · rw [← hquot]
    exact fits_toInt q

theorem quotient_eq_ok {y : Int64} (hy : y ≠ 0) : quotient x y = .ok (div? x y) := by
  unfold quotient
  cases hq : truncated? x y with
  | none => rw [div?_eq_none hy hq]; rfl
  | some q =>
    obtain ⟨r, hr, hrem, hquot, -⟩ := rem_eq_ok hq
    have hzero : r ≠ 0 ↔ x.toInt.tmod y.toInt ≠ 0 := by rw [← hrem, toInt_ne_zero_iff]
    have hfits := fits_fdiv hq
    rw [div?]
    rw [fdiv_eq_ite (toInt_ne_zero hy)] at hfits ⊢
    simp only [hr, hzero, ok_bind, pure_eq_ok]
    split_ifs at hfits ⊢ with hround
    · rw [hquot, word_of_fits hfits, narrow?, if_pos hfits]
      rfl
    · rw [← hquot, narrow?_toInt]

theorem remainder_eq_ok {y : Int64} (hy : y ≠ 0) : remainder x y = .ok (mod? x y) := by
  unfold remainder
  cases hq : truncated? x y with
  | none =>
    rw [mod?, div?_eq_none hy hq]
    rfl
  | some q =>
    obtain ⟨r, hr, hrem, hquot, -⟩ := rem_eq_ok hq
    have hzero : r ≠ 0 ↔ x.toInt.tmod y.toInt ≠ 0 := by rw [← hrem, toInt_ne_zero_iff]
    have hdiv : div? x y = some (Int64.ofInt (x.toInt.fdiv y.toInt)) := if_pos (fits_fdiv hq)
    rw [mod?, hdiv]
    dsimp only
    rw [fmod_eq_ite (toInt_ne_zero hy)]
    simp only [hr, hzero, hrem, ok_bind, pure_eq_ok]
    split_ifs with hsigns
    · have hlt := natAbs_tmod_lt x.toInt (toInt_ne_zero hy)
      obtain ⟨hlow, hhigh⟩ := fits_toInt y
      have hdiffer : ¬(x.toInt.tmod y.toInt < 0 ↔ y.toInt < 0) := fun h => hsigns.2 (propext h)
      have hfits : Fits (x.toInt.tmod y.toInt + y.toInt) := ⟨by omega, by omega⟩
      rw [word_of_fits hfits, narrow?, if_pos hfits]
      rfl
    · rw [← hrem, narrow?_toInt]

theorem onInts_eq_ok (op : ArithOp) (x y : Int64) : onInts op x y = .ok (op.onInts x y) := by
  cases op with
  | divide | modulo =>
    by_cases hy : y = 0
    · simp only [onInts, ArithOp.onInts, if_pos hy, pure_eq_ok]
    · simp only [onInts, ArithOp.onInts, if_neg hy, quotient_eq_ok hy, remainder_eq_ok hy, ok_bind]
      split <;> simp only [pure_eq_ok, *]
  | _ => rfl

theorem arith_eq_ok (s : Store) (op : ArithOp) (a b : Value) :
    arith s op a b = .ok (s.arith op a b) := by
  unfold arith
  split
  · next x y hx hy => simp only [onInts_eq_ok, ok_bind, pure_eq_ok, Store.arith, hx, hy]
  · rfl

/-! ### Items -/

theorem read_of_lt {xs : List α} {i : Nat} (h : i < xs.length) : read xs i = .ok xs[i] := by
  simp only [read, getElem?_eq_getElem h]

theorem write_of_lt {xs : List α} {i : Nat} (h : i < xs.length) (x : α) :
    write xs i x = .ok (xs.set i x) := if_pos h

theorem lt_of_position {what : Indexed} {i : Nat} {key : Value}
    (h : Bytewright.position what length key = .ok i) : i < length := by
  unfold Bytewright.position at h
  split at h
  · cases h
  · dsimp only at h
    split_ifs at h with hneg hrange
    · cases h
      omega
    · cases h
      omega

theorem position_eq_ok (what : Indexed) (hlength : length < 9223372036854775808) (key : Value) :
    position what length key = .ok (Bytewright.position what length key) := by
  have hword : (Int64.ofNat length).toInt = length := by
    rw [← Int64.ofInt_eq_ofNat]
    exact toInt_ofInt_of_fits ⟨by omega, by omega⟩
  unfold position Bytewright.position
  cases hi : key.asInt? with
  | none => rfl
  | some i =>
    dsimp only
    obtain ⟨hlow, hhigh⟩ := fits_toInt i
    have hfound (j : Int) : (if j < 0 ∨ (length : Int) ≤ j then
          pure (.error (.indexOutOfRange what)) else pure (.ok j.toNat) :
            Direct (Except Failure Nat)) =
        .ok (if 0 ≤ j ∧ j < length then .ok j.toNat else .error (.indexOutOfRange what)) := by
      by_cases hj : 0 ≤ j ∧ j < length
      · rw [if_pos hj, if_neg (by omega), pure_eq_ok]
      · rw [if_neg hj, if_pos (by omega), pure_eq_ok]
    by_cases hneg : i.toInt < 0
    · have hfits : Fits (i.toInt + length) := ⟨by omega, by omega⟩
      rw [if_pos hneg, if_pos hneg, hword, word_of_fits hfits, ok_bind, toInt_ofInt_of_fits hfits]
      exact hfound _
    · rw [if_neg hneg, if_neg hneg, pure_eq_ok, ok_bind]
      exact hfound _

theorem itemAt_eq_ok (what : Indexed) {items : List Value}
    (hlength : items.length < 9223372036854775808) (key : Value) :
    itemAt what items key = .ok (Bytewright.itemAt what items key) := by
  unfold itemAt Bytewright.itemAt
  rw [position_eq_ok what hlength]
  cases hposition : Bytewright.position what items.length key with
  | error e => rfl
  | ok i =>
    have hi := lt_of_position hposition
    simp only [Bind.bind, Except.bind, read_of_lt hi, getElem?_eq_getElem hi, pure_eq_ok]

theorem item_eq_ok (hlength : ∀ n, s.length? obj = some n → n < 9223372036854775808) (key : Value) :
    item s obj key = .ok (s.item obj key) := by
  cases obj with
  | tuple items => exact itemAt_eq_ok .tuple (hlength _ rfl) key
  | list r => exact itemAt_eq_ok .list (hlength _ rfl) key
  | str t =>
    refine itemAt_eq_ok .string ?_ key
    rw [length_map, String.length_toList]
    exact hlength _ rfl
  | _ => rfl

theorem setItem_eq_ok (hlength : ∀ n, s.length? obj = some n → n < 9223372036854775808)
    (key v : Value) : setItem s obj key v = .ok (s.setItem obj key v) := by
  cases obj with
  | list r =>
    unfold setItem Store.setItem
    dsimp only
    rw [position_eq_ok .list (hlength _ rfl)]
    cases hposition : Bytewright.position .list (s.list r).length key with
    | error e => rfl
    | ok i =>
      simp only [ok_bind, write_of_lt (lt_of_position hposition), pure_eq_ok]
      rfl
  | _ => rfl

/-! ### Arguments -/

theorem pairs_eq_ok {values : List Value} (heven : Even values.length) :
    pairs values = .ok (Exec.keywords values) := by
  induction values using Exec.keywords.induct with
  | case1 key v rest ih =>
    have hrest : Even rest.length := by simpa [Nat.even_add_one, parity_simps] using heven
    rw [pairs, Exec.keywords]
    have hpairs : pairs ((v :: rest).drop 1) = .ok (Exec.keywords rest) := ih hrest
    simp only [take_succ_cons, take_zero, read, getElem?_cons_zero, ok_bind,
      getElem?_cons_succ, hpairs, pure_eq_ok]
    cases Exec.keywords rest <;> rfl
  | case2 v w rest hkey =>
    rw [pairs, Exec.keywords]
    · cases v with
      | str key => exact absurd rfl (hkey key)
      | _ => rfl
    · exact hkey
  | case3 values hstr hpair =>
    rcases values with _ | ⟨v, _ | ⟨w, rest⟩⟩
    · rw [pairs]
      rfl
    · simp at heven
    · exact absurd rfl (hpair v w rest)

section Bind

variable {c : Code} {slots tail : List (Option Value)} {xs : List (Option Value)} {i : Nat}
  {kwargs : Keywords} {args values : List Value} {ys : List (Option Value)}

theorem read_append_left (h : i < xs.length) : read (xs ++ ys) i = .ok xs[i] := by
  rw [read_of_lt (by rw [length_append]; omega), getElem_append_left h]

theorem write_append_left (h : i < xs.length) (x : Option Value) :
    write (xs ++ ys) i x = .ok (xs.set i x ++ ys) := by
  rw [write_of_lt (by rw [length_append]; omega), set_append_left _ _ h]

theorem keywords_eq_ok (hc : c.argCount.toNat ≤ c.varNames.length)
    (hslots : slots.length = c.argCount.toNat) (kwargs extra : Keywords) :
    keywords c kwargs (slots ++ tail) extra =
      .ok ((bindKeywords c kwargs slots extra).map fun r => (r.1 ++ tail, r.2)) := by
  have hslice : slice c.varNames c.argCount.toNat = .ok c.params := if_pos hc
  induction kwargs generalizing slots extra with
  | nil => rfl
  | cons p more ih =>
    obtain ⟨key, v⟩ := p
    rw [keywords, bindKeywords, hslice]
    cases hkey : c.params.findIdx? (· == key) with
    | none =>
      simp only [ok_bind, hkey]
      split_ifs
      · exact ih hslots _
      · rfl
    | some i =>
      have hi : i < slots.length := by
        have := (findIdx?_eq_some_iff_getElem.1 hkey).1
        rw [CodeOf.params, length_take] at this
        omega
      simp only [ok_bind, hkey, read_append_left hi, getElem?_eq_getElem hi]
      cases hslot : slots[i] with
      | some w => rfl
      | none =>
        simp only [write_append_left hi, ok_bind]
        exact ih (by rw [length_set]; exact hslots) _

theorem length_of_bindKeywords {extra extra' : Keywords}
    {slots' : List (Option Value)} (h : bindKeywords c kwargs slots extra = .ok (slots', extra')) :
    slots'.length = slots.length := by
  induction kwargs generalizing slots extra with
  | nil =>
    cases h
    rfl
  | cons p more ih =>
    obtain ⟨key, v⟩ := p
    rw [bindKeywords] at h
    split at h
    · split at h
      · cases h
      · rw [ih h, length_set]
    · split_ifs at h
      exact ih h

theorem length_alignDefaults (n : Nat) (values : List Value) :
    (alignDefaults n values).length = n := by
  simp only [alignDefaults, length_append, length_replicate, length_map, length_take]
  omega

theorem getElem?_alignDefaults {n : Nat} (hi : i < n) (values : List Value) :
    (alignDefaults n values)[i]? =
      some (if n - values.length ≤ i then values[i - (n - values.length)]? else none) := by
  rw [alignDefaults]
  split_ifs with hle
  · have hlt : i - (n - values.length) < values.length := by omega
    rw [getElem?_append_right (by rwa [length_replicate]), length_replicate,
      getElem?_map, getElem?_take_of_lt (by omega), getElem?_eq_getElem hlt]
    rfl
  · rw [getElem?_append_left (by rw [length_replicate]; omega),
      getElem?_replicate, if_pos (by omega)]

theorem defaults_eq_ok (hc : c.argCount.toNat ≤ c.varNames.length) (tail : List (Option Value))
    (values done : List Value) (hslots : done.length + slots.length = c.argCount.toNat) :
    defaults c values slots.length done.length (done.map some ++ (slots ++ tail)) =
      .ok ((bindDefaults c (c.params.drop done.length) slots
        ((alignDefaults c.argCount.toNat values).drop done.length)).map
          fun vs => (done ++ vs).map some ++ tail) := by
  induction slots generalizing done with
  | nil =>
    rw [length_nil, defaults, bindDefaults]
    · simp [Except.map]
    · simp
  | cons slot slots ih =>
    rw [length_cons] at hslots
    have hi : done.length < c.argCount.toNat := by omega
    have hlt : done.length < c.varNames.length := by omega
    have hparams : c.params.drop done.length =
        c.varNames[done.length] :: c.params.drop (done.length + 1) := by
      rw [drop_eq_getElem?_toList_append, CodeOf.params, getElem?_take_of_lt hi,
        getElem?_eq_getElem hlt]
      rfl
    have hdefaults := drop_eq_getElem?_toList_append
      (l := alignDefaults c.argCount.toNat values) (i := done.length)
    rw [getElem?_alignDefaults hi] at hdefaults
    have hread : read (done.map some ++ (slot :: slots ++ tail)) done.length = .ok slot := by
      simp [read]
    have hname : read c.varNames done.length = .ok c.varNames[done.length] := read_of_lt hlt
    -- the slot is done, with the value that it has or gets
    have hnext (v : Value) : defaults c values slots.length (done.length + 1)
          (done.map some ++ (some v :: slots ++ tail)) =
        .ok ((bindDefaults c (c.params.drop (done.length + 1)) slots
          ((alignDefaults c.argCount.toNat values).drop (done.length + 1))).map
            fun vs => (done ++ v :: vs).map some ++ tail) := by
      have hdone := ih (done ++ [v]) (by rw [length_append, length_singleton]; omega)
      simpa using hdone
    have hset (v : Value) : write (done.map some ++ (slot :: slots ++ tail)) done.length (some v) =
        .ok (done.map some ++ (some v :: slots ++ tail)) := by
      simp [write]
    rw [length_cons, defaults, hparams, hdefaults, hread]
    simp only [ok_bind]
    generalize hvalue : (if c.argCount.toNat - values.length ≤ done.length then
      values[done.length - (c.argCount.toNat - values.length)]? else none) = value
    cases slot with
    | some v =>
      simp only [hnext, Option.toList_some, singleton_append, bindDefaults, Option.some_or]
      cases bindDefaults c (c.params.drop (done.length + 1)) slots
        ((alignDefaults c.argCount.toNat values).drop (done.length + 1)) <;> rfl
    | none =>
      cases value with
      | some v =>
        simp only [hset, ok_bind, hnext, Option.toList_some, singleton_append, bindDefaults,
          Option.none_or]
        cases bindDefaults c (c.params.drop (done.length + 1)) slots
          ((alignDefaults c.argCount.toNat values).drop (done.length + 1)) <;> rfl
      | none =>
        simp only [hname, ok_bind, Option.toList_some, singleton_append, bindDefaults,
          Option.none_or]
        rfl

theorem bindDefaults_eq_ok_iff {params : List String} {defaults : List (Option Value)}
    (hslots : slots.length = params.length) (hdefaults : defaults.length = params.length)
    {vs : List Value} :
    bindDefaults c params slots defaults = .ok vs ↔
      List.zipWith Option.or slots defaults = vs.map some := by
  induction params generalizing slots defaults vs with
  | nil =>
    obtain rfl := length_eq_zero_iff.1 hslots
    obtain rfl := length_eq_zero_iff.1 hdefaults
    rw [bindDefaults, zipWith_nil_left, Except.ok.injEq, eq_comm, eq_comm (a := []),
      map_eq_nil_iff]
    simp
  | cons x params ih =>
    obtain ⟨slot, slots, rfl⟩ := exists_cons_of_length_eq_add_one hslots
    obtain ⟨default, defaults, rfl⟩ := exists_cons_of_length_eq_add_one hdefaults
    rw [length_cons, length_cons, Nat.add_right_cancel_iff] at hslots hdefaults
    rw [bindDefaults, zipWith_cons_cons]
    cases hvalue : slot.or default with
    | none => cases vs <;> simp
    | some v =>
      cases vs with
      | nil =>
        cases bindDefaults c params slots defaults <;>
          simp [Bind.bind, Except.bind, pure, Except.pure]
      | cons w vs =>
        rw [map_cons, List.cons.injEq, ← ih hslots hdefaults, Option.some.injEq]
        cases bindDefaults c params slots defaults <;>
          simp [Bind.bind, Except.bind, pure, Except.pure]

def restSlot (c : Code) (rest : List Value) : List (Option Value) :=
  if c.takesRest then [some (.tuple rest)] else []

def extraSlot (c : Code) (extra : Keywords) (s : Store) : List (Option Value) × Store :=
  if c.takesExtra then
    let (d, s) := s.newDict (extra.map fun p => (.str p.1, p.2))
    ([some d], s)
  else ([], s)

theorem length_restSlot (c : Code) (rest : List Value) :
    (restSlot c rest).length = c.takesRest.toNat := by
  unfold restSlot
  cases c.takesRest <;> rfl

theorem length_extraSlot (c : Code) (extra : Keywords) (s : Store) :
    (extraSlot c extra s).1.length = c.takesExtra.toNat := by
  unfold extraSlot
  cases c.takesExtra <;> rfl

def openSlots (n : Nat) : List (Option Value) := List.replicate n none

theorem openSlots_add (m n : Nat) : openSlots (m + n) = openSlots m ++ openSlots n :=
  replicate_add m n none

theorem write_openSlots {k : Nat} (hi : xs.length = i) (hk : 0 < k) (x : Option Value) :
    write (xs ++ openSlots k) i x = .ok (xs ++ ([x] ++ openSlots (k - 1))) := by
  obtain ⟨k, rfl⟩ := Nat.exists_eq_add_one.2 hk
  subst hi
  rw [Nat.add_sub_cancel, Nat.add_comm, openSlots_add]
  simp [write, openSlots]

def givenSlots (c : Code) (args : List Value) : List (Option Value) :=
  (args.take c.argCount.toNat).map some ++ openSlots (c.argCount.toNat - args.length)

theorem length_givenSlots (c : Code) (args : List Value) :
    (givenSlots c args).length = c.argCount.toNat := by
  rw [givenSlots, length_append, length_map, length_take, openSlots, length_replicate]
  omega

theorem positional_eq_ok (hc : c.argumentSlots ≤ c.varNames.length) (args : List Value) :
    positional c args = .ok (givenSlots c args ++ (restSlot c (args.drop c.argCount.toNat) ++
      openSlots (c.varNames.length - c.argCount.toNat - c.takesRest.toNat))) := by
  rw [CodeOf.argumentSlots] at hc
  have hopen : c.varNames.length - ((args.take c.argCount.toNat).map some).length =
      c.argCount.toNat - args.length + (c.varNames.length - c.argCount.toNat) := by
    rw [length_map, length_take]
    omega
  unfold positional restSlot
  dsimp only
  rw [hopen, ← openSlots, openSlots_add, ← append_assoc, ← givenSlots]
  cases hrest : c.takesRest with
  | true =>
    rw [hrest, Bool.toNat_true] at hc
    rw [if_pos rfl, if_pos rfl, write_openSlots (length_givenSlots c args) (by omega)]
    rfl
  | false => rfl

theorem collect_eq_ok (hxs : xs.length = c.argCount.toNat)
    (hc : c.argumentSlots ≤ c.varNames.length) (rest : List Value) (extra : Keywords)
    (s : Store) :
    collect c extra (xs ++ (restSlot c rest ++
        openSlots (c.varNames.length - c.argCount.toNat - c.takesRest.toNat))) s =
      .ok (xs ++ (restSlot c rest ++ (extraSlot c extra s).1 ++
        openSlots (c.varNames.length - c.argumentSlots)), (extraSlot c extra s).2) := by
  have hslots : c.varNames.length - c.argumentSlots =
      c.varNames.length - c.argCount.toNat - c.takesRest.toNat - c.takesExtra.toNat := by
    rw [CodeOf.argumentSlots]
    omega
  rw [CodeOf.argumentSlots] at hc
  rw [hslots]
  unfold collect extraSlot
  cases hextra : c.takesExtra with
  | true =>
    rw [hextra, Bool.toNat_true] at hc
    have hlength : (xs ++ restSlot c rest).length = c.argCount.toNat + c.takesRest.toNat := by
      rw [length_append, hxs, length_restSlot]
    simp only [if_true, ← append_assoc]
    rw [write_openSlots hlength (by omega)]
    simp
  | false => simp

theorem bindArguments_eq
    (hmany : ¬(c.argCount.toNat < args.length ∧ (!c.takesRest) = true)) (values : List Value)
    (kwargs : Keywords) :
    bindArguments c values args kwargs =
      (bindKeywords c kwargs (givenSlots c args) []).bind fun r =>
        (bindDefaults c c.params r.1 (alignDefaults c.argCount.toNat values)).bind fun params =>
          .ok ⟨params, args.drop c.argCount.toNat, r.2⟩ :=
  if_neg hmany

theorem length_of_defaulted (hc : c.argCount.toNat ≤ c.varNames.length)
    (hslots : slots.length = c.argCount.toNat) {params : List Value}
    (h : bindDefaults c c.params slots (alignDefaults c.argCount.toNat values) = .ok params) :
    params.length = c.argCount.toNat := by
  have hparams := c.length_params hc
  have hgiven := (bindDefaults_eq_ok_iff (hslots.trans hparams.symm)
    ((length_alignDefaults _ _).trans hparams.symm)).1 h
  have hlength := congrArg List.length hgiven
  rw [length_zipWith, hslots, length_alignDefaults, Nat.min_self, length_map] at hlength
  exact hlength.symm

theorem exists_of_bindArguments (h : bindArguments c values args kwargs = .ok b) :
    (args.length ≤ c.argCount.toNat ∨ c.takesRest = true) ∧
    ∃ slots, bindKeywords c kwargs (givenSlots c args) [] = .ok (slots, b.extra) ∧
      bindDefaults c c.params slots (alignDefaults c.argCount.toNat values) =
        .ok b.params ∧ b.rest = args.drop c.argCount.toNat := by
  by_cases hmany : c.argCount.toNat < args.length ∧ (!c.takesRest) = true
  · rw [bindArguments, if_pos hmany] at h
    cases h
  rw [bindArguments_eq hmany] at h
  cases hkeywords : bindKeywords c kwargs (givenSlots c args) [] with
  | error e =>
    rw [hkeywords] at h
    cases h
  | ok bound =>
    rw [hkeywords, Except.bind] at h
    cases hvalues : bindDefaults c c.params bound.1
        (alignDefaults c.argCount.toNat values) with
    | error e =>
      rw [hvalues] at h
      cases h
    | ok values =>
      rw [hvalues] at h
      cases h
      refine ⟨?_, bound.1, rfl, hvalues, rfl⟩
      by_contra hroom
      push Not at hroom
      exact hmany ⟨hroom.1, by simpa using hroom.2⟩

theorem length_of_bindArguments (hc : c.argCount.toNat ≤ c.varNames.length)
    (h : bindArguments c values args kwargs = .ok b) : b.params.length = c.argCount.toNat := by
  obtain ⟨-, slots, hkeywords, hvalues, -⟩ := exists_of_bindArguments h
  exact length_of_defaulted hc
    ((length_of_bindKeywords hkeywords).trans (length_givenSlots c args)) hvalues

end Bind

section Frame

variable {f : Function} {args : List Value} {kwargs : Keywords}

theorem frame_eq (hb : b.params.length = f.code.argCount.toNat) (s : Store) :
    f.frame b s = frameOf f (b.params.map some ++ (restSlot f.code b.rest ++
      (extraSlot f.code b.extra s).1 ++ openSlots (f.code.varNames.length - f.code.argumentSlots)))
      (extraSlot f.code b.extra s).2 := by
  unfold FunctionOf.frame frameOf restSlot extraSlot CodeOf.argumentSlots openSlots
  dsimp only
  cases f.code.takesRest <;> cases f.code.takesExtra <;> simp [hb]

theorem bindFunction_eq_ok (f : Function) (args : List Value) (kwargs : Keywords)
    (s : Store) : bindFunction f args kwargs s = .ok (f.bind args kwargs s) := by
  unfold bindFunction FunctionOf.bind
  dsimp only
  by_cases hfew : f.code.varNames.length < f.code.argumentSlots
  · rw [if_pos hfew, if_pos hfew, pure_eq_ok]
  rw [if_neg hfew, if_neg hfew]
  by_cases hmany : f.code.argCount.toNat < args.length ∧ (!f.code.takesRest) = true
  · have hbind : bindArguments f.code f.defaults args kwargs =
        .error (.tooManyArguments f.code.name f.code.argCount.toNat args.length) := if_pos hmany
    rw [if_pos hmany, hbind, pure_eq_ok]
  have hc : f.code.argumentSlots ≤ f.code.varNames.length := Nat.le_of_not_lt hfew
  have hn : f.code.argCount.toNat ≤ f.code.varNames.length := by
    rw [CodeOf.argumentSlots] at hc
    omega
  rw [if_neg hmany, positional_eq_ok hc, ok_bind, keywords_eq_ok hn (length_givenSlots f.code args),
    ok_bind, bindArguments_eq hmany]
  cases hkeywords : bindKeywords f.code kwargs (givenSlots f.code args) [] with
  | error e => rfl
  | ok bound =>
    obtain ⟨slots, extra⟩ := bound
    have hslots : slots.length = f.code.argCount.toNat := by
      rw [length_of_bindKeywords hkeywords, length_givenSlots]
    have hdefaults := defaults_eq_ok hn
      (restSlot f.code (args.drop f.code.argCount.toNat) ++ (extraSlot f.code extra s).1 ++
        openSlots (f.code.varNames.length - f.code.argumentSlots)) f.defaults []
      (by rw [length_nil, Nat.zero_add, hslots])
    simp only [length_nil, drop_zero, map_nil, nil_append, hslots] at hdefaults
    simp only [Except.map, Except.bind, collect_eq_ok hslots hc, ok_bind, hdefaults]
    cases hparams : bindDefaults f.code f.code.params slots
        (alignDefaults f.code.argCount.toNat f.defaults) with
    | error e => rfl
    | ok params =>
      exact congrArg (fun bound => Except.ok (Except.ok bound))
        (frame_eq (b := ⟨params, args.drop f.code.argCount.toNat, extra⟩)
          (length_of_defaulted hn hslots hparams) s).symm

theorem length_fast_of_bind {s' : Store} {frame : Frame}
    (h : f.bind args kwargs s = .ok (frame, s')) :
    frame.fast.length = frame.code.varNames.length := by
  unfold FunctionOf.bind at h
  dsimp only at h
  split_ifs at h with hfew
  cases hb : bindArguments f.code f.defaults args kwargs with
  | error e =>
    rw [hb] at h
    cases h
  | ok b =>
    have hlength := length_of_bindArguments (c := f.code)
      (by rw [CodeOf.argumentSlots] at hfew; omega) hb
    rw [hb] at h
    dsimp only at h
    rw [frame_eq hlength] at h
    obtain ⟨rfl, -⟩ := Prod.mk.inj (Except.ok.inj h)
    rw [CodeOf.argumentSlots] at hfew
    simp only [length_append, length_map, hlength, length_restSlot, length_extraSlot,
      openSlots, length_replicate, CodeOf.argumentSlots]
    omega

end Frame

end Direct

end Bytewright
