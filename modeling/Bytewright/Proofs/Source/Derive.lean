import Bytewright.Proofs.Source.Height

/-!
# What is parsed is derived

The parsers of a level are sound if those they call are, so soundness at every room is an induction
on the room.  The loops for sums, products and suffixes carry what has been read so far.
-/

namespace Bytewright

open List

/-- The places of the tokens that remain, and that of the token consumed last, are all known. -/
def Cursor.Within (K : Position → Prop) (c : Cursor) : Prop :=
  K c.last ∧ ∀ t ∈ c.rest, K t.position

theorem Cursor.Within.position {K : Position → Prop} {c : Cursor} (h : c.Within K) :
    K c.position := by
  rcases c with ⟨_ | ⟨t, rest⟩, last⟩
  · exact h.1
  · exact h.2 t mem_cons_self

theorem Cursor.eq_eof_of_atEnd {c : Cursor} {t : Token} (h : c.atEnd = true)
    (ht : c.token? = some t) : t = .eof := by
  rw [Cursor.atEnd, ht] at h
  split at h <;> simp_all

namespace Parser

variable {α β : Type}

/-! ### Consumed tokens -/

/-- A result comes with the tokens that were consumed for it, and a fault with a place. -/
def Outcome (K : Position → Prop) (rest : List Located) (Q : α → List Located → Prop) :
    Except FragmentError (α × Cursor) → Prop
  | .ok (a, c) => K c.last ∧ ∃ ts, rest = ts ++ c.rest ∧ Q a ts
  | .error e => K e.position

/-- The parser returns what `Q` says of the tokens that it has consumed, or fails at a place in `K`.
-/
def Reads (K : Position → Prop) (p : Parser α) (c : Cursor) (Q : α → List Located → Prop) : Prop :=
  c.Within K → Outcome K c.rest Q (p c)

variable {K : Position → Prop} {p : Parser α} {f : α → Parser β} {c : Cursor} {t : Located}
  {rest ts us : List Located} {last : Position} {P Q : α → List Located → Prop}
  {R : β → List Located → Prop} {tok : Token} {op : ArithOp}

theorem Outcome.prepend (ts : List Located) {r : Except FragmentError (α × Cursor)}
    (h : Outcome K rest (fun a us => Q a (ts ++ us)) r) : Outcome K (ts ++ rest) Q r := by
  cases r with
  | error e => exact h
  | ok r =>
    obtain ⟨hlast, us, rfl, hQ⟩ := h
    exact ⟨hlast, ts ++ us, (append_assoc _ _ _).symm, hQ⟩

theorem Reads.bind' (hp : Reads K p c P)
    (hf : ∀ a ts c', c.rest = ts ++ c'.rest → P a ts → Reads K (f a) c' fun b us =>
      R b (ts ++ us)) :
    Reads K (p >>= f) c R := by
  intro hc
  have h := hp hc
  change Outcome K c.rest R (p c >>= fun r => f r.1 r.2)
  cases hpc : p c with
  | error e =>
    rw [hpc] at h
    exact h
  | ok r =>
    rw [hpc] at h
    obtain ⟨hlast, ts, hts, ha⟩ := h
    have hc' : r.2.Within K := ⟨hlast, fun t ht => hc.2 t (by simp [hts, ht])⟩
    rw [hts]
    exact (hf r.1 ts r.2 hts ha hc').prepend ts

theorem Reads.bind (hp : Reads K p c P)
    (hf : ∀ a ts c', P a ts → Reads K (f a) c' fun b us => R b (ts ++ us)) :
    Reads K (p >>= f) c R :=
  hp.bind' fun a ts c' _ => hf a ts c'

theorem reads_pure {a : α} (h : Q a []) : Reads K (pure a) c Q := fun hc => ⟨hc.1, [], rfl, h⟩

theorem Reads.mono (h : Reads K p c P) (hPQ : ∀ a ts, P a ts → Q a ts) : Reads K p c Q := by
  have hbind : Reads K (p >>= pure) c Q :=
    h.bind fun a ts c' ha => reads_pure (by simpa using hPQ a ts ha)
  rwa [bind_pure] at hbind

theorem reads_fail (fault : FragmentFault) : Reads K (fail fault) c Q := fun hc => hc.position

theorem reads_failExpecting (wanted : Expectation) : Reads K (failExpecting wanted) c Q := by
  intro hc
  unfold failExpecting
  split <;> exact hc.position

theorem reads_peek {f : Option Token → Parser β} (h : Reads K (f c.token?) c R) :
    Reads K (peek >>= f) c R :=
  h

theorem reads_atEnd {f : Bool → Parser β} (h : Reads K (f c.atEnd) c R) :
    Reads K (atEnd >>= f) c R :=
  h

/-- A parser that is given the place where it starts. -/
theorem reads_start {f : Position → Parser β} (h : K c.position → Reads K (f c.position) c R) :
    Reads K ((fun c => .ok (c.position, c) : Parser Position) >>= f) c R :=
  fun hc => h hc.position hc

theorem reads_advance {f : Option Token → Parser β}
    (h : Reads K (f (some t.token)) ⟨rest, t.position⟩ fun b us => R b (t :: us)) :
    Reads K (advance >>= f) ⟨t :: rest, last⟩ R :=
  fun hc => (h (forall_mem_cons.1 hc.2)).prepend [t]

theorem reads_eat {A B : Parser β}
    (hA : ∀ t rest, t.token = tok → Reads K A ⟨rest, t.position⟩ fun b us => R b (t :: us))
    (hB : c.token? ≠ some tok → Reads K B c R) :
    Reads K (eat tok >>= fun b => if b = true then A else B) c R := by
  intro hc
  change Outcome K c.rest R (eat tok c >>= fun r => (if r.1 = true then A else B) r.2)
  rcases c with ⟨_ | ⟨t, rest⟩, last⟩
  · exact hB (by simp [Cursor.token?]) hc
  · by_cases ht : t.token = tok
    · have heat : eat tok ⟨t :: rest, last⟩ = .ok (true, ⟨rest, t.position⟩) := by
        simp [eat, Cursor.token?, Cursor.next, ht]
      rw [heat]
      exact (hA t rest ht (forall_mem_cons.1 hc.2)).prepend [t]
    · have heat : eat tok ⟨t :: rest, last⟩ = .ok (false, ⟨t :: rest, last⟩) := by
        simp [eat, Cursor.token?, ht]
      rw [heat]
      exact hB (by simp [Cursor.token?, ht]) hc

theorem reads_expect {context : String} {A : Unit → Parser β}
    (hA : ∀ t c', t.token = tok → Reads K (A ()) c' fun b us => R b (t :: us)) :
    Reads K (expect tok context >>= A) c R := by
  have hexpect : Reads K (expect tok context) c fun _ ts => ∃ t, ts = [t] ∧ t.token = tok :=
    reads_eat (fun t rest ht => reads_pure ⟨t, rfl, ht⟩) fun _ => reads_failExpecting _
  refine hexpect.bind ?_
  rintro - _ c' ⟨t, rfl, ht⟩
  exact hA t c' ht

theorem reads_ite {b : Prop} [Decidable b] {A B : Parser α} (hA : b → Reads K A c Q)
    (hB : ¬b → Reads K B c Q) : Reads K (if b then A else B) c Q := by
  by_cases hb : b
  · rw [if_pos hb]
    exact hA hb
  · rw [if_neg hb]
    exact hB hb

theorem reads_isNext {A B : Parser β} (hA : c.token? = some tok → Reads K A c R)
    (hB : Reads K B c R) : Reads K (isNext tok >>= fun b => if b = true then A else B) c R :=
  reads_ite (b := (c.token? == some tok) = true) (fun h => hA (beq_iff_eq.1 h)) fun _ => hB

theorem reads_rounds {loop : Nat → Parser α} (h : Reads K (loop c.rest.length) c Q) :
    Reads K (rounds loop) c Q :=
  h

theorem reads_keyword? {f : Option String → Parser β}
    (hsome : ∀ x t u rest last, t.token = .ident x → u.token = .symbol .assign →
      Reads K (f (some x)) ⟨t :: u :: rest, last⟩ R)
    (hnone : Reads K (f none) c R) : Reads K (keyword? >>= f) c R := by
  intro hc
  change Outcome K c.rest R (keyword? c >>= fun r => f r.1 r.2)
  unfold keyword?
  split
  · next x p q rest hrest =>
    obtain ⟨_, last⟩ := c
    cases hrest
    exact hsome x _ _ rest last rfl rfl hc
  · exact hnone hc

/-! ### Operators -/

theorem sumOp?_eq_some {t : Token} (h : sumOp? t = some op) :
    ∃ s, t = .symbol s ∧ (s, op) ∈ sumOperators := by
  unfold sumOp? at h
  split at h
  all_goals first | cases h; done | exact ⟨_, rfl, by cases h; decide⟩

theorem productOp?_eq_some {t : Token} (h : productOp? t = some op) :
    ∃ s, t = .symbol s ∧ (s, op) ∈ productOperators := by
  unfold productOp? at h
  split at h
  all_goals first | cases h; done | exact ⟨_, rfl, by cases h; decide⟩

theorem compareOp?_eq_some {t : Token} {op : CompareOp} (h : compareOp? t = some op) :
    ∃ s, t = .symbol s ∧ (s, op) ∈ compareOperators := by
  unfold compareOp? at h
  split at h
  all_goals first | cases h; done | exact ⟨_, rfl, by cases h; decide⟩

/-! ### Lists and calls -/

/-- The parser consumes tokens that spell its tree, which is not too high. -/
def Parses (K : Position → Prop) (p : Parser α) (bound : Nat) (phrase : α → Phrase) : Prop :=
  ∀ c, Reads K p c fun a ts => SpellsLow bound (phrase a) ts

theorem reads_moreStrings (s : String) (n : Nat) (c : Cursor) :
    Reads K (moreStrings s n) c fun r ts =>
      ∃ more : List String, ts.map Located.token = more.map Token.str ∧
        r = more.foldl (· ++ ·) s := by
  induction n generalizing s c with
  | zero => exact reads_pure ⟨[], rfl, rfl⟩
  | succ n ih =>
    refine reads_peek ?_
    rcases c with ⟨_ | ⟨⟨token, pos⟩, rest⟩, last⟩
    · exact reads_pure ⟨[], rfl, rfl⟩
    · cases token with
      | str more =>
        refine reads_advance ((ih (s ++ more) _).mono ?_)
        rintro r ts ⟨strings, hts, rfl⟩
        exact ⟨more :: strings, by simpa using hts, rfl⟩
      | _ => exact reads_pure ⟨[], rfl, rfl⟩

section Display

variable {L : List α → List Located → Prop} (hp : ∀ c, Reads K p c Q) (hnil : L [] [])
  (hlast : ∀ x ts, Q x ts → L [x] ts)
  (hcons : ∀ x ts k xs us, Q x ts → k.token = .symbol .comma → L xs us → L (x :: xs) (ts ++ k ::
    us)) (close : Token)
include hp hnil hlast hcons close

theorem reads_itemsUntil (n : Nat) (c : Cursor) : Reads K (itemsUntil close p n) c L := by
  induction n generalizing c with
  | zero => exact reads_failExpecting _
  | succ n ih =>
    refine reads_isNext (fun _ => reads_pure hnil) ((hp c).bind fun x ts c' hx => ?_)
    refine reads_eat (fun k rest hk => ?_) fun _ => reads_pure (by simpa using hlast x ts hx)
    refine (ih _).bind fun xs us c'' hxs => reads_pure ?_
    rw [append_nil]
    exact hcons x ts k xs us hx hk hxs

theorem reads_display (context : String) (c : Cursor) :
    Reads K (display close context p) c fun xs ts =>
      ∃ us r, ts = us ++ [r] ∧ L xs us ∧ r.token = close := by
  refine (reads_rounds (reads_itemsUntil hp hnil hlast hcons close _ c)).bind fun xs us c' hxs => ?_
  exact reads_expect fun r c'' hr => reads_pure ⟨us, r, rfl, hxs, hr⟩

end Display

def Arguments.Extends (bound : Nat) (before after : Arguments) (ts : List Located) : Prop :=
  (∃ e, before.kwargs = [] ∧ after = { before with args := before.args ++ [e] } ∧
    SpellsLow bound (.full e) ts) ∨
  ∃ x value t a us, after = { before with kwargs := before.kwargs ++ [(x, value)] } ∧
    x ∉ before.kwargs.map Prod.fst ∧ ts = t :: a :: us ∧ t.token = .ident x ∧
    a.token = .symbol .assign ∧ SpellsLow bound (.full value) us

def Arguments.Extended (bound : Nat) (before after : Arguments) (ts : List Located) : Prop :=
  ∃ args kwargs, after = ⟨before.args ++ args, before.kwargs ++ kwargs⟩ ∧
    SpellsLow bound (.arguments args kwargs) ts ∧ (before.kwargs = [] ∨ args = []) ∧
    ((before.kwargs.map Prod.fst).Nodup → ((before.kwargs ++ kwargs).map Prod.fst).Nodup)

section Lists

variable {item : Parser Expr} {bound : Nat}

theorem Arguments.Extended.nil (a : Arguments) : a.Extended bound a [] :=
  ⟨[], [], by simp, ⟨.noArgument, Nat.zero_le _⟩, .inr rfl, by simp⟩

theorem Arguments.Extends.extended {before after : Arguments} (h : before.Extends bound after ts) :
    before.Extended bound after ts := by
  rcases h with ⟨e, hempty, rfl, he⟩ | ⟨x, value, t, a, us, rfl, hx, rfl, ht, ha, hvalue⟩
  · exact ⟨[e], [], by simp, ⟨.lastArgument he.spells, by simpa [Phrase.height, heightOfAll,
      heightOfKeywords] using he.low⟩, .inl hempty, by simp⟩
  · refine ⟨[], [(x, value)], by simp, ⟨.lastKeyword ht ha hvalue.spells, ?_⟩, .inr rfl,
      fun hnodup => ?_⟩
    · simpa [Phrase.height, heightOfAll, heightOfKeywords] using hvalue.low
    · simpa using List.Nodup.concat hx hnodup

theorem Arguments.Extends.trans {a b c : Arguments} {k : Located} (h : a.Extends bound b ts)
    (hk : k.token = .symbol .comma) (h' : b.Extended bound c us) :
    a.Extended bound c (ts ++ k :: us) := by
  obtain ⟨args, kwargs, rfl, ⟨hspells, hlow⟩, hor, hdistinct⟩ := h'
  obtain ⟨hargs, hkwargs⟩ := max_le_iff.1 hlow
  rcases h with ⟨e, hempty, rfl, he⟩ | ⟨x, value, t, d, vs, rfl, hx, rfl, ht, hd, hvalue⟩
  · exact ⟨e :: args, kwargs, by simp, ⟨.argument he.spells hk hspells,
      max_le (max_le he.low hargs) hkwargs⟩, .inl hempty, hdistinct⟩
  · obtain rfl : args = [] := by simpa using hor
    refine ⟨[], (x, value) :: kwargs, by simp, ⟨.keyword ht hd hvalue.spells hk hspells,
      max_le hargs (max_le hvalue.low hkwargs)⟩, .inr rfl, fun hnodup => ?_⟩
    rw [append_cons]
    exact hdistinct (by simpa using List.Nodup.concat hx hnodup)

variable (hitem : Parses K item bound .full)
include hitem

theorem reads_moreItems (n : Nat) (c : Cursor) : Reads K (moreItems item n) c fun es ts =>
    (es = [] ∧ ts = [] ∧ (n = 0 ∨ c.token? ≠ some (.symbol .comma))) ∨
      ∃ k us, ts = k :: us ∧ k.token = .symbol .comma ∧ SpellsLow bound (.items es) us := by
  induction n generalizing c with
  | zero => exact reads_pure (.inl ⟨rfl, rfl, .inl rfl⟩)
  | succ n ih =>
    refine reads_eat (fun k rest hk => reads_peek (reads_ite (fun _ => ?_) fun _ => ?_)) fun hne =>
      reads_pure (.inl ⟨rfl, rfl, .inr hne⟩)
    · refine (hitem _).bind fun e ts c' he => (ih c').bind fun es us c'' hes => reads_pure ?_
      rcases hes with ⟨rfl, rfl, -⟩ | ⟨k', vs, rfl, hk', hes⟩
      · exact .inr ⟨k, ts, by simp, hk, .lastItem he⟩
      · exact .inr ⟨k, ts ++ k' :: vs, by simp, hk, .item he hk' hes⟩
    · exact reads_pure (.inr ⟨k, [], rfl, hk, .noItem⟩)

theorem parses_expressionList : Parses K (expressionList item) (bound + 1) .several := by
  refine fun c => (hitem c).bind fun e ts c' he => reads_isNext (fun hcomma => ?_) ?_
  · refine (reads_rounds (reads_moreItems hitem _ c')).bind fun es us c'' hes => reads_pure ?_
    rcases hes with ⟨-, -, hnone | hnone⟩ | ⟨k, vs, rfl, hk, hes⟩
    · rw [length_eq_zero_iff] at hnone
      simp [Cursor.token?, hnone] at hcomma
    · exact absurd hcomma hnone
    · rw [append_nil]
      exact ⟨.tuple he.spells hk hes.spells, Nat.succ_le_succ (max_le he.low hes.low)⟩
  · exact reads_pure ⟨by simpa using .one he.spells, Nat.le_succ_of_le he.low⟩

theorem reads_pair (c : Cursor) : Reads K (pair item) c fun p ts => ∃ us k vs, ts = us ++ k :: vs ∧
    SpellsLow bound (.full p.1) us ∧ k.token = .symbol .colon ∧ SpellsLow bound (.full p.2) vs := by
  refine (hitem c).bind fun key us c' hkey => reads_expect fun k c'' hk => ?_
  exact (hitem c'').bind fun value vs _ hvalue =>
    reads_pure ⟨us, k, vs, by simp, hkey, hk, hvalue⟩

theorem reads_argument (sofar : Arguments) (c : Cursor) :
    Reads K (argument item sofar) c (sofar.Extends bound) := by
  refine reads_keyword? (fun x t u rest last ht hu => ?_) ?_
  · refine reads_advance (reads_ite (fun _ => reads_fail _) fun hnew => reads_advance ?_)
    refine (hitem _).bind fun value us c' hvalue => reads_pure (.inr ?_)
    exact ⟨x, value, t, u, us, rfl, by simpa using hnew, by simp, ht, hu, hvalue⟩
  · refine reads_ite (fun hempty => ?_) fun _ => reads_fail _
    refine (hitem c).bind fun e ts c' he => reads_pure (.inl ?_)
    exact ⟨e, by simpa using hempty, rfl, by simpa using he⟩

theorem reads_arguments (sofar : Arguments) (n : Nat) (c : Cursor) :
    Reads K (arguments item sofar n) c (sofar.Extended bound) := by
  induction n generalizing sofar c with
  | zero => exact reads_failExpecting _
  | succ n ih =>
    refine reads_isNext (fun _ => reads_pure (.nil sofar)) ?_
    refine (reads_argument hitem sofar c).bind fun after ts c' hafter => ?_
    refine reads_eat (fun k rest hk => ?_) fun _ => reads_pure (by simpa using hafter.extended)
    exact (ih after _).mono fun r us hr => hafter.trans hk hr

theorem reads_callArguments (c : Cursor) : Reads K (callArguments item) c fun a ts => ∃ us r,
    ts = us ++ [r] ∧ SpellsLow bound (.arguments a.args a.kwargs) us ∧ r.token = .symbol .rParen ∧
      (a.kwargs.map Prod.fst).Nodup ∧ a.args.length ≤ 255 ∧ a.kwargs.length ≤ 255 := by
  refine (reads_rounds (reads_arguments hitem {} _ c)).bind fun a us c' ha => ?_
  refine reads_expect fun r c'' hr => reads_ite (fun _ => reads_fail _) fun hlength => ?_
  obtain ⟨args, kwargs, rfl, hspells, -, hdistinct⟩ := ha
  refine reads_pure ⟨us, r, rfl, by simpa using hspells, hr, hdistinct .nil, ?_⟩
  omega

end Lists

/-! ### Levels -/

namespace Level

/-- The parsers of the level return trees that their tokens spell, not too high for the room. -/
structure Sound (K : Position → Prop) (level : Level) (room : Nat) : Prop where
  full : ∀ c, Reads K level.full c fun e ts => 0 < room ∧ SpellsLow (tallest room) (.full e) ts
  notOperand : Parses K level.notOperand (tallest room + 3 * room + 1) .negation
  minusOperand : Parses K level.minusOperand (tallest room + room) .unary
  summand : ∀ {a ts t s op bound}, SpellsLow bound (.sum a) ts → t.token = .symbol s →
    (s, op) ∈ sumOperators → tallest room + 2 * room + 1 ≤ bound →
    ∀ c, Reads K (level.summand op a) c fun e us =>
      SpellsLow (bound + room) (.sum e) (ts ++ t :: us)
  factor : ∀ {a ts t s op bound}, SpellsLow bound (.product a) ts → t.token = .symbol s →
    (s, op) ∈ productOperators → tallest room + room + 1 ≤ bound →
    ∀ c, Reads K (level.factor op a) c fun e us =>
      SpellsLow (bound + room) (.product e) (ts ++ t :: us)
  suffix : ∀ {a ts bound}, SpellsLow bound (.primary a) ts → tallest room + 1 ≤ bound →
    ∀ {t rest last},
      t.token = .symbol .dot ∨ t.token = .symbol .lParen ∨ t.token = .symbol .lBracket →
      Reads K (level.suffix a) ⟨t :: rest, last⟩ fun e us =>
        SpellsLow (bound + room) (.primary e) (ts ++ us)

theorem sound_exhausted : Sound K exhausted 0 where
  full _ := reads_fail _
  notOperand _ := reads_fail _
  minusOperand _ := reads_fail _
  summand _ _ _ _ _ := reads_fail _
  factor _ _ _ _ _ := reads_fail _
  suffix _ _ _ _ _ _ := reads_fail _

namespace Sound

variable {lower : Level} {room : Nat} (h : Sound K lower room)
include h

variable {a : Expr} {bound : Nat}

theorem parses_full : Parses K lower.full (tallest room) .full :=
  fun c => (h.full c).mono fun _ _ he => he.2

theorem atom : Parses K (Level.atom lower) (tallest room + 1) .atom := by
  have hleaf {e : Expr} {ts : List Located} (he : Spells (.atom e) ts) (hheight : e.height = 1) :
      SpellsLow (tallest room + 1) (.atom e) ts := ⟨he, hheight.trans_le (Nat.le_add_left 1 _)⟩
  refine fun c => reads_peek ?_
  rcases c with ⟨_ | ⟨⟨token, pos⟩, rest⟩, last⟩
  · exact reads_failExpecting _
  · cases token with
    | integer n => exact reads_advance (reads_pure (hleaf (.integer rfl) rfl))
    | float x => exact reads_advance (reads_pure (hleaf (.float rfl) rfl))
    | str s =>
      refine reads_advance ((reads_rounds (reads_moreStrings s _ _)).bind ?_)
      rintro _ ts c' ⟨more, hts, rfl⟩
      have hjoin : String.join (s :: more) = more.foldl (· ++ ·) s := by simp [String.join]
      refine reads_pure (hleaf ?_ rfl)
      rw [← hjoin]
      exact .strings (by simpa using hts)
    | ident x => exact reads_advance (reads_pure (hleaf (.name rfl) rfl))
    | keyword k =>
      cases k with
      | none => exact reads_advance (reads_pure (hleaf (.none rfl) rfl))
      | true => exact reads_advance (reads_pure (hleaf (.true rfl) rfl))
      | false => exact reads_advance (reads_pure (hleaf (.false rfl) rfl))
      | _ => exact reads_failExpecting _
    | symbol s =>
      cases s with
      | lParen =>
        refine reads_advance (reads_eat (fun r rest' hr => reads_pure (hleaf (.unit rfl hr) rfl))
          fun _ => ?_)
        refine (parses_expressionList h.parses_full _).bind fun e ts c' he => ?_
        exact reads_expect fun r c'' hr => reads_pure ⟨.parens rfl he.spells hr, he.low⟩
      | lBracket =>
        refine reads_advance ((reads_display (L := fun es ts => SpellsLow _ (.items es) ts)
          h.parses_full .noItem (fun _ _ => .lastItem) (fun _ _ _ _ _ => .item) _ _ _).bind ?_)
        rintro es _ c' ⟨us, r, rfl, hes, hr⟩
        exact reads_pure ⟨by simpa using .list rfl hes.spells hr, Nat.succ_le_succ hes.low⟩
      | lBrace =>
        refine reads_advance ((reads_display (L := fun ps ts => SpellsLow (tallest room)
          (.pairs ps) ts) (reads_pair h.parses_full) ⟨.noPair, Nat.zero_le _⟩ ?_ ?_ _ _ _).bind ?_)
        · rintro ⟨key, value⟩ _ ⟨us, k, vs, rfl, hkey, hk, hvalue⟩
          exact ⟨.lastPair hkey.spells hk hvalue.spells,
            max_le (max_le hkey.low hvalue.low) (Nat.zero_le _)⟩
        · rintro ⟨key, value⟩ _ k' ps ws ⟨us, k, vs, rfl, hkey, hk, hvalue⟩ hk' hps
          exact ⟨.pair hkey.spells hk hvalue.spells hk' hps.spells,
            max_le (max_le hkey.low hvalue.low) hps.low⟩
        · rintro ps _ c' ⟨us, r, rfl, hps, hr⟩
          exact reads_pure ⟨by simpa using .dict rfl hps.spells hr, Nat.succ_le_succ hps.low⟩
      | _ => exact reads_failExpecting _
    | _ => exact reads_failExpecting _

theorem suffixes (ha : SpellsLow bound (.primary a) ts) (hbound : tallest room + 1 ≤ bound)
    (c : Cursor) : Reads K (Level.suffixes lower a) c fun e us =>
      SpellsLow (bound + room) (.primary e) (ts ++ us) := by
  refine reads_peek ?_
  rcases c with ⟨_ | ⟨⟨token, pos⟩, rest⟩, last⟩
  · exact reads_pure (ha.append_nil _)
  · dsimp only [Cursor.token?, head?_cons, Option.map_some]
    split
    · next heq => exact h.suffix ha hbound (.inl (by simpa using heq))
    · next heq => exact h.suffix ha hbound (.inr (.inl (by simpa using heq)))
    · next heq => exact h.suffix ha hbound (.inr (.inr (by simpa using heq)))
    · exact reads_pure (ha.append_nil _)

theorem oneSuffix (ha : SpellsLow bound (.primary a) ts) (hbound : tallest room + 1 ≤ bound)
    (ht : t.token = .symbol .dot ∨ t.token = .symbol .lParen ∨ t.token = .symbol .lBracket) :
    Reads K (Level.oneSuffix lower a) ⟨t :: rest, last⟩ fun e us =>
      SpellsLow (bound + 1) (.primary e) (ts ++ us) := by
  obtain ⟨token, pos⟩ := t
  refine reads_advance ?_
  rcases ht with rfl | rfl | rfl
  · rcases rest with _ | ⟨⟨token, pos'⟩, rest⟩
    · exact reads_fail _
    · refine reads_advance ?_
      dsimp only
      split
      · next heq =>
        exact reads_pure ⟨.member ha.spells rfl (by simpa using heq), Nat.succ_le_succ ha.low⟩
      · exact reads_fail _
  · refine (reads_callArguments h.parses_full _).bind ?_
    rintro a' _ c' ⟨us, r, rfl, hargs, hr, hdistinct, hlengths⟩
    refine reads_pure ⟨?_, Nat.succ_le_succ (max_le ha.low (hargs.low.trans (by omega)))⟩
    rw [append_nil]
    exact .call ha.spells rfl hargs.spells hr hdistinct hlengths.1 hlengths.2
  · refine (parses_expressionList h.parses_full _).bind fun key us c' hkey => ?_
    exact reads_expect fun r c'' hr => reads_pure ⟨.subscript ha.spells rfl hkey.spells hr,
      Nat.succ_le_succ (max_le ha.low (hkey.low.trans hbound))⟩

theorem unary : Parses K (Level.unary lower) (tallest room + room + 1) .unary := by
  refine fun c => reads_eat (fun t rest ht => ?_) fun _ => (h.atom c).bind fun e ts c' he => ?_
  · refine (h.minusOperand _).bind fun e ts c' he => reads_pure ?_
    rw [append_nil]
    unfold negated
    split
    · exact ⟨.minusInteger ht he.spells, Nat.le_add_left _ _⟩
    · exact ⟨.minusFloat ht he.spells, Nat.le_add_left _ _⟩
    · next hint hfloat =>
      refine ⟨.minus ht he.spells ?_, Nat.succ_le_succ he.low⟩
      rintro (⟨n, rfl⟩ | ⟨x, rfl⟩)
      · exact hint n rfl
      · exact hfloat x rfl
  · refine (h.suffixes ⟨.ofAtom he.spells, he.low⟩ le_rfl c').mono ?_
    exact fun e us he => ⟨.ofPrimary he.spells, he.low.trans (by omega)⟩

theorem factors (ha : SpellsLow bound (.product a) ts) (hbound : tallest room + room + 1 ≤ bound)
    (c : Cursor) : Reads K (Level.factors lower a) c fun e us =>
      SpellsLow (bound + room) (.product e) (ts ++ us) := by
  refine reads_peek ?_
  rcases c with ⟨_ | ⟨⟨token, pos⟩, rest⟩, last⟩
  · exact reads_pure (ha.append_nil _)
  · dsimp only [Cursor.token?, head?_cons, Option.map_some, Option.bind_some]
    cases hop : productOp? token with
    | none => exact reads_pure (ha.append_nil _)
    | some op =>
      obtain ⟨s, rfl, hs⟩ := productOp?_eq_some hop
      exact reads_advance (h.factor ha rfl hs hbound _)

theorem product : Parses K (Level.product lower) (tallest room + 2 * room + 1) .product := by
  refine fun c => (h.unary c).bind fun e ts c' he => ?_
  refine (h.factors ⟨.ofUnary he.spells, he.low⟩ le_rfl c').mono fun _ _ he => he.weaken ?_
  omega

theorem summands (ha : SpellsLow bound (.sum a) ts) (hbound : tallest room + 2 * room + 1 ≤ bound)
    (c : Cursor) : Reads K (Level.summands lower a) c fun e us =>
      SpellsLow (bound + room) (.sum e) (ts ++ us) := by
  refine reads_peek ?_
  rcases c with ⟨_ | ⟨⟨token, pos⟩, rest⟩, last⟩
  · exact reads_pure (ha.append_nil _)
  · dsimp only [Cursor.token?, head?_cons, Option.map_some, Option.bind_some]
    cases hop : sumOp? token with
    | none => exact reads_pure (ha.append_nil _)
    | some op =>
      obtain ⟨s, rfl, hs⟩ := sumOp?_eq_some hop
      exact reads_advance (h.summand ha rfl hs hbound _)

theorem sum : Parses K (Level.sum lower) (tallest room + 3 * room + 1) .sum := by
  refine fun c => (h.product c).bind fun e ts c' he => ?_
  refine (h.summands ⟨.ofProduct he.spells, he.low⟩ le_rfl c').mono fun _ _ he => he.weaken ?_
  omega

theorem comparison :
    Parses K (Level.comparison lower) (tallest room + 3 * room + 2) .comparison := by
  refine fun c => (h.sum c).bind fun a ts c' ha => reads_peek ?_
  have hone : SpellsLow (tallest room + 3 * room + 2) (.comparison a) (ts ++ []) :=
    ⟨by simpa using .ofSum ha.spells, Nat.le_succ_of_le ha.low⟩
  rcases c' with ⟨_ | ⟨⟨token, pos⟩, rest⟩, last⟩
  · exact reads_pure hone
  · dsimp only [Cursor.token?, head?_cons, Option.map_some, Option.bind_some]
    cases hop : compareOp? token with
    | none => exact reads_pure hone
    | some op =>
      obtain ⟨s, rfl, hs⟩ := compareOp?_eq_some hop
      refine reads_advance ((h.sum _).bind fun b us c'' hb => reads_peek ?_)
      refine reads_ite (fun _ => reads_fail _) fun _ => reads_pure ?_
      rw [append_nil]
      exact ⟨.compare ha.spells rfl hs hb.spells, Nat.succ_le_succ (max_le ha.low hb.low)⟩

theorem negation : Parses K (Level.negation lower) (tallest room + 3 * room + 2) .negation := by
  refine fun c => reads_eat (fun t rest ht => ?_) fun _ =>
    (h.comparison c).mono fun _ _ he => ⟨.ofComparison he.spells, he.low⟩
  exact (h.notOperand _).bind fun e ts c' he =>
    reads_pure ⟨by simpa using .not ht he.spells, Nat.succ_le_succ he.low⟩

theorem conditional : Parses K (Level.conditional lower) (tallest (room + 1)) .full := by
  have hle := tallest_add_le_tallest_succ room
  refine fun c => (h.negation c).bind fun then_ ts c' hthen => reads_eat (fun i rest hi => ?_)
    fun _ => reads_pure ⟨by simpa using .ofNegation hthen.spells, hthen.low.trans hle⟩
  refine (h.negation _).bind fun cond us c'' hcond => reads_expect fun j c''' hj => ?_
  refine (h.full _).bind fun else_ vs _ ⟨hroom, helse⟩ => reads_pure ⟨?_, ?_⟩
  · rw [append_nil]
    exact .ifElse hthen.spells hi hcond.spells hj helse.spells
  · rw [tallest_succ_of_pos hroom]
    exact Nat.succ_le_succ (max_le hcond.low (max_le hthen.low (helse.low.trans (by omega))))

theorem raise : Sound K (Level.raise lower) (room + 1) := by
  have hle := tallest_add_le_tallest_succ room
  refine ⟨fun c => (h.conditional c).mono fun _ _ he => ⟨Nat.succ_pos _, he⟩,
    fun c => (h.negation c).mono fun _ _ he => he.weaken (by omega),
    fun c => (h.unary c).mono fun _ _ he => he.weaken (by omega), ?_, ?_, ?_⟩
  · intro a ts t s op bound ha ht hop hbound c
    refine (h.product c).bind fun b us c' hb => ?_
    have hab : SpellsLow (bound + 1) (.sum (.binary op a b)) (ts ++ t :: us) :=
      ⟨.plus ha.spells ht hop hb.spells, Nat.succ_le_succ (max_le ha.low (hb.low.trans (by omega)))⟩
    refine (h.summands hab (by omega) c').mono fun e vs he => ?_
    exact ⟨by simpa using he.spells, he.low.trans (by omega)⟩
  · intro a ts t s op bound ha ht hop hbound c
    refine (h.unary c).bind fun b us c' hb => ?_
    have hab : SpellsLow (bound + 1) (.product (.binary op a b)) (ts ++ t :: us) :=
      ⟨.times ha.spells ht hop hb.spells,
        Nat.succ_le_succ (max_le ha.low (hb.low.trans (by omega)))⟩
    refine (h.factors hab (by omega) c').mono fun e vs he => ?_
    exact ⟨by simpa using he.spells, he.low.trans (by omega)⟩
  · intro a ts bound ha hbound t rest last ht
    refine (h.oneSuffix ha (by omega) ht).bind fun b us c' hb => ?_
    refine (h.suffixes hb (by omega) c').mono fun e vs he => ?_
    exact ⟨by simpa using he.spells, he.low.trans (by omega)⟩

end Sound

theorem sound_within (room : Nat) : Sound K (within room) room := by
  induction room with
  | zero => exact sound_exhausted
  | succ room ih => exact ih.raise

end Level

/-! ### Statements -/

/-- Behind the tokens there is nothing but the end of the text. -/
def ToEnd (c : Cursor) (ts : List Located) : Prop :=
  ∀ rest, c.rest = ts ++ rest → ∀ t ∈ rest.head?, t.token = .eof

section Statements

theorem toEnd_nil_of_atEnd (h : c.atEnd = true) : ToEnd c [] := by
  rintro rest hrest t ht
  exact Cursor.eq_eof_of_atEnd h (by rw [Cursor.token?, hrest, nil_append, ht]; rfl)

theorem ToEnd.trans {c' : Cursor} (hts : c.rest = ts ++ c'.rest) (h : ToEnd c' us) :
    ToEnd c (ts ++ us) := by
  intro rest hrest
  rw [hts, append_assoc] at hrest
  exact h rest (append_cancel_left hrest)

theorem isSeparator_iff {t : Token} : isSeparator t = true ↔ t.Separates := by
  simp [isSeparator, Token.Separates]

theorem reads_skip {p : Token → Bool} {S : Token → Prop} (hS : ∀ {t}, p t = true → S t) (n : Nat)
    (c : Cursor) : Reads K (skip p n) c fun _ ts => ∀ t ∈ ts, S t.token := by
  induction n generalizing c with
  | zero => exact reads_pure (by simp)
  | succ n ih =>
    refine reads_peek (reads_ite (fun hp => ?_) fun _ => reads_pure (by simp))
    rcases c with ⟨_ | ⟨t, rest⟩, last⟩
    · cases hp
    · exact reads_advance ((ih _).mono fun _ ts hts => forall_mem_cons.2 ⟨hS hp, hts⟩)

variable {item : Parser Expr} {bound : Nat} (hlist : Parses K (expressionList item) bound .several)
include hlist

theorem reads_assignment (c : Cursor) :
    Reads K (assignment item) c fun a ts => SpellsAction a ts ∧ a.height ≤ bound := by
  refine reads_start fun hstart => (hlist c).bind fun e ts c' he => reads_eat (fun a rest ha => ?_)
    fun _ => reads_pure ⟨by simpa using .expr he.spells, max_le he.low (Nat.zero_le _)⟩
  cases htarget : e.target? with
  | none => exact fun _ => hstart
  | some target =>
    refine (hlist _).bind fun value us c'' hvalue => ?_
    refine reads_isNext (fun _ => reads_fail _) (reads_pure ⟨?_, ?_⟩)
    · rw [append_nil]
      exact .assign he.spells htarget ha hvalue.spells
    · exact (Action.height_assign_le htarget).trans (max_le he.low hvalue.low)

theorem reads_action (c : Cursor) :
    Reads K (action item) c fun a ts => SpellsAction a ts ∧ a.height ≤ bound := by
  refine reads_peek ?_
  rcases c with ⟨_ | ⟨t, rest⟩, last⟩
  · exact reads_assignment hlist _
  · dsimp only [Cursor.token?, head?_cons, Option.map_some]
    split
    · next ht => exact reads_advance (reads_pure ⟨.pass (by simpa using ht), Nat.zero_le _⟩)
    · next ht =>
      refine reads_advance ?_
      rcases rest with _ | ⟨u, rest⟩
      · exact reads_fail _
      · refine reads_advance ?_
        split
        · next hu =>
          exact reads_pure ⟨.delete (by simpa using ht) (by simpa using hu), Nat.zero_le _⟩
        · exact reads_fail _
    · next ht =>
      refine reads_advance ((hlist _).bind fun e ts c' he => reads_pure ⟨?_, ?_⟩)
      · rw [append_nil]
        exact .raise (by simpa using ht) he.spells
      · exact max_le he.low (Nat.zero_le _)
    · exact reads_assignment hlist _

theorem reads_statement (c : Cursor) :
    Reads K (statement item) c fun s ts => SpellsStmt s ts ∧ s.action.height ≤ bound := by
  refine reads_start fun _ => (reads_action hlist c).bind' fun a ts c' hts ⟨ha, hlow⟩ => ?_
  obtain ⟨t, us, rfl⟩ := ha.exists_cons
  refine reads_pure ⟨⟨by simpa using ha, t, us, by simp, ?_⟩, hlow⟩
  simp [Cursor.position, hts]

theorem reads_statements (n : Nat) (c : Cursor) (hn : c.rest.length ≤ n) :
    Reads K (statements item n) c fun body ts =>
      (SpellsSuite body ts ∧ ∀ s ∈ body, s.action.height ≤ bound) ∧ ToEnd c ts := by
  induction n generalizing c with
  | zero =>
    have hrest : c.rest = [] := length_eq_zero_iff.1 (Nat.le_zero.1 hn)
    have hend : c.atEnd = true := by simp [Cursor.atEnd, Cursor.token?, hrest]
    exact reads_pure ⟨⟨.done (by simp), by simp⟩, toEnd_nil_of_atEnd hend⟩
  | succ n ih =>
    refine reads_atEnd (reads_ite (fun hend => ?_) fun _ => ?_)
    · exact reads_pure ⟨⟨.done (by simp), by simp⟩, toEnd_nil_of_atEnd hend⟩
    refine (reads_statement hlist c).bind' fun s ts c₁ hts ⟨hs, hlow⟩ => ?_
    refine reads_atEnd (reads_peek (reads_ite (fun _ => reads_failExpecting _) fun hnext => ?_))
    refine (reads_rounds (reads_skip isSeparator_iff.1 _ c₁)).bind' fun _ seps c₂ hseps
      hseparates => ?_
    obtain ⟨t, vs, rfl, -⟩ := hs.2
    have hlength : c₂.rest.length ≤ n := by
      have h := congrArg List.length hts
      rw [hseps] at h
      simp only [length_append, length_cons] at h
      omega
    refine (ih c₂ hlength).bind' fun body us c₃ hus ⟨⟨hbody, hlows⟩, hend⟩ => reads_pure ?_
    have hsuite := hbody.separated hseparates
    have htoEnd := (hend.trans hseps).trans hts
    rw [append_nil]
    refine ⟨⟨.stmt (forall_mem_nil _) hs hsuite fun u hu => ?_, forall_mem_cons.2 ⟨hlow, hlows⟩⟩,
      htoEnd⟩
    have htoken : c₁.token? = some u.token := by
      rw [Option.mem_def, head?_eq_some_iff] at hu
      obtain ⟨ws, hws⟩ := hu
      simp [Cursor.token?, hseps, hus, ← append_assoc, hws]
    have hmem : u ∈ seps ++ us := mem_of_mem_head? hu
    rw [Bool.not_eq_true, Bool.and_eq_false_iff, htoken] at hnext
    rcases hnext with hnext | hnext
    · have heof : u.token = .eof := Cursor.eq_eof_of_atEnd (by simpa using hnext) htoken
      exact absurd heof (hsuite.ne_eof u hmem)
    · exact isSeparator_iff.1 (by simpa using hnext)

theorem reads_suite (c : Cursor) : Reads K (suite item) c fun body ts =>
    (SpellsSuite body ts ∧ ∀ s ∈ body, s.action.height ≤ bound) ∧ ToEnd c ts := by
  refine (reads_rounds (reads_skip isSeparator_iff.1 _ c)).bind' fun _ before c' hbefore
    hseparates => ?_
  refine (reads_rounds (reads_statements hlist _ c' le_rfl)).mono fun body ts ⟨hbody, hend⟩ => ?_
  exact ⟨⟨hbody.1.separated hseparates, hbody.2⟩, hend.trans hbefore⟩

theorem reads_loneExpression (c : Cursor) : Reads K (loneExpression item) c fun e ts =>
    (SpellsLone e ts ∧ e.height ≤ bound) ∧ ToEnd c ts := by
  refine (reads_rounds (reads_skip eq_of_beq _ c)).bind' fun _ before c₁ hbefore hnewlines => ?_
  refine reads_atEnd (reads_ite (fun _ => reads_fail _) fun _ => ?_)
  refine (hlist c₁).bind' fun e ts c₂ hts he => ?_
  refine (reads_rounds (reads_skip eq_of_beq _ c₂)).bind' fun _ after c₃ hafter hnewlines' => ?_
  refine reads_atEnd (reads_ite (fun hend => reads_pure ?_) fun _ => reads_failExpecting _)
  refine ⟨⟨⟨before, ts, after, by simp, hnewlines, he.spells, hnewlines'⟩, he.low⟩, ?_⟩
  exact (((toEnd_nil_of_atEnd hend).trans hafter).trans hts).trans hbefore

omit hlist in
/-- What a parser that goes on to the end of the text answers. -/
theorem outcome_of_reads {D : α → List Located → Prop} {last : Located}
    (h : ∀ c, Reads K p c fun a ts => D a ts ∧ ToEnd c ts)
    (hD : ∀ a ts, D a ts → ∀ t ∈ ts, t.token ≠ .eof) (hlast : last.token = .eof)
    (hts : ∀ t ∈ ts, t.token ≠ .eof) (hstart : K .start) (hK : ∀ t ∈ ts ++ [last], K t.position) :
    (∀ a, p.run' ⟨ts ++ [last], .start⟩ = .ok a → D a ts) ∧
      ∀ e, p.run' ⟨ts ++ [last], .start⟩ = .error e → K e.position := by
  have hrun := h ⟨ts ++ [last], .start⟩ ⟨hstart, hK⟩
  change (∀ a, Prod.fst <$> p ⟨ts ++ [last], .start⟩ = .ok a → _) ∧
    ∀ e, Prod.fst <$> p ⟨ts ++ [last], .start⟩ = .error e → _
  generalize p ⟨ts ++ [last], .start⟩ = r at hrun
  cases r with
  | error e =>
    refine ⟨nofun, ?_⟩
    rintro _ ⟨⟩
    exact hrun
  | ok r =>
    refine ⟨?_, nofun⟩
    rintro _ ⟨⟩
    obtain ⟨-, us, hus, ha, hend⟩ := hrun
    -- both lists end where the end of the text is met for the first time
    have hhead := hend r.2.rest hus
    rcases eq_nil_or_concat r.2.rest with hnil | ⟨front, z, hz⟩
    · have hmem : last ∈ us := by
        rw [hnil, append_nil] at hus
        simp [← hus]
      exact absurd hlast (hD _ us ha last hmem)
    · rw [hz, concat_eq_append, ← append_assoc] at hus
      rw [hz, concat_eq_append] at hhead
      obtain ⟨rfl, -⟩ := append_inj' hus rfl
      rcases front with _ | ⟨t, front⟩
      · rwa [append_nil]
      · exact absurd (hhead t rfl) (hts t (by simp))

end Statements

theorem parses_fragment : Parses K (expressionList expression) (tallest maxNesting + 1) .several :=
  parses_expressionList (Level.sound_within maxNesting).parses_full

end Parser

end Bytewright
