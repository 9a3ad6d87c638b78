import Bytewright.Proofs.Source.Derive

/-!
# What is derived is parsed

The productions of sums, products and primaries recurse on the left, while their parsers go on to
the right.  So for these a phrase is followed by a run of the loop, and the statement is about the
two together.
-/

namespace Bytewright

open List

namespace Parser

variable {α β : Type} {s : Symbol} {op : ArithOp} {context : String}

namespace Level

/-! ### Answers at every room -/

/-- The parser returns `a`, or else the room is not ample and is used up. -/
def Gives (ample : Prop) (p : Parser α) (cs : List Located) (a : α) (rest : List Located) : Prop :=
  ∀ last, (∃ last', p ⟨cs, last⟩ = .ok (a, ⟨rest, last'⟩)) ∨
    ¬ample ∧ ∃ pos, p ⟨cs, last⟩ = .error ⟨.tooDeep maxNesting, pos⟩

/-- With ample room the parser returns `a`; with less, it may use it up. -/
def Reaches (p : Level → Parser α) (cs : List Located) (a : α) (rest : List Located) : Prop :=
  ∃ ample, ∀ room, Gives (ample ≤ room) (p (within room)) cs a rest

variable {p q : Level → Parser α} {f : Level → α → Parser β} {cs mid rest : List Located}
  {a : α} {b : β} {t : Located}

theorem Reaches.congr (h : Reaches p cs a rest)
    (hpq : ∀ level last, q level ⟨cs, last⟩ = p level ⟨cs, last⟩) : Reaches q cs a rest := by
  obtain ⟨ample, h⟩ := h
  refine ⟨ample, fun room last => ?_⟩
  rw [hpq]
  exact h room last

theorem Reaches.bind (hp : Reaches p cs a mid) (hf : Reaches (fun level => f level a) mid b rest) :
    Reaches (fun level => p level >>= f level) cs b rest := by
  obtain ⟨ample, hp⟩ := hp
  obtain ⟨ample', hf⟩ := hf
  refine ⟨max ample ample', fun room last => ?_⟩
  show (∃ last', (p (within room) ⟨cs, last⟩ >>= fun r => f (within room) r.1 r.2) = _) ∨
    _ ∧ ∃ pos, (p (within room) ⟨cs, last⟩ >>= fun r => f (within room) r.1 r.2) = _
  rcases hp room last with ⟨last', hok⟩ | ⟨hshort, pos, herror⟩
  · rw [hok]
    rcases hf room last' with hok | ⟨hshort, herror⟩
    · exact .inl hok
    · exact .inr ⟨by omega, herror⟩
  · rw [herror]
    exact .inr ⟨by omega, pos, rfl⟩

theorem reaches_step {p : Parser α} (hp : ∀ last, ∃ last', p ⟨cs, last⟩ = .ok (a, ⟨mid, last'⟩))
    (hf : Reaches (fun level => f level a) mid b rest) :
    Reaches (fun level => p >>= f level) cs b rest :=
  Reaches.bind ⟨0, fun _ last => .inl (hp last)⟩ hf

theorem reaches_pure : Reaches (fun _ => pure a) cs a cs :=
  ⟨0, fun _ last => .inl ⟨last, rfl⟩⟩

theorem reaches_peek_head {f : Level → Option Token → Parser β}
    (h : Reaches (fun level => f level (cs.head?.map Located.token)) cs b rest) :
    Reaches (fun level => peek >>= f level) cs b rest :=
  reaches_step (fun last => ⟨last, rfl⟩) h

theorem reaches_peek {f : Level → Option Token → Parser β} {tok : Token} (ht : t.token = tok)
    (h : Reaches (fun level => f level (some tok)) (t :: cs) b rest) :
    Reaches (fun level => peek >>= f level) (t :: cs) b rest := by
  subst ht
  exact reaches_peek_head h

theorem reaches_advance {f : Level → Option Token → Parser β}
    (h : Reaches (fun level => f level (some t.token)) cs b rest) :
    Reaches (fun level => advance >>= f level) (t :: cs) b rest :=
  reaches_step (fun _ => ⟨t.position, rfl⟩) h

section Branches

variable {tok : Token} {A B : Level → Parser β}

theorem head_ne {tok' : Token} (ht : t.token = tok) (hne : tok ≠ tok') (cs : List Located) :
    ∀ u ∈ (t :: cs).head?, u.token ≠ tok' := by
  rintro _ ⟨⟩
  rwa [ht]

theorem reaches_branch {p : Parser Bool} (c : Bool)
    (hp : ∀ last, ∃ last', p ⟨cs, last⟩ = .ok (c, ⟨mid, last'⟩))
    (h : Reaches (if c = true then A else B) mid b rest) :
    Reaches (fun level => p >>= fun b => if b = true then A level else B level) cs b rest := by
  refine reaches_step hp ?_
  cases c with
  | true => exact h
  | false => exact h

theorem reaches_eat (ht : t.token = tok) (h : Reaches A cs b rest) :
    Reaches (fun level => eat tok >>= fun b => if b = true then A level else B level)
      (t :: cs) b rest :=
  reaches_branch true (fun _ => ⟨t.position, by simp [eat, Cursor.token?, Cursor.next, ht]⟩) h

theorem reaches_eat_else (hne : ∀ t ∈ cs.head?, t.token ≠ tok) (h : Reaches B cs b rest) :
    Reaches (fun level => eat tok >>= fun b => if b = true then A level else B level)
      cs b rest := by
  refine reaches_branch false (fun last => ⟨last, ?_⟩) h
  rcases cs with _ | ⟨t, cs⟩
  · rfl
  · simp [eat, Cursor.token?, hne t rfl]

theorem reaches_isNext (ht : t.token = tok) (h : Reaches A (t :: cs) b rest) :
    Reaches (fun level => isNext tok >>= fun b => if b = true then A level else B level)
      (t :: cs) b rest :=
  reaches_branch true (fun last => ⟨last, by simp [isNext, Cursor.token?, ht]⟩) h

theorem reaches_isNext_else (hne : ∀ t ∈ cs.head?, t.token ≠ tok) (h : Reaches B cs b rest) :
    Reaches (fun level => isNext tok >>= fun b => if b = true then A level else B level)
      cs b rest := by
  refine reaches_branch false (fun last => ⟨last, ?_⟩) h
  rcases cs with _ | ⟨t, cs⟩
  · rfl
  · simp [isNext, Cursor.token?, hne t rfl]

theorem reaches_expect {A : Level → Unit → Parser β} (ht : t.token = tok)
    (h : Reaches (fun level => A level ()) cs b rest) :
    Reaches (fun level => expect tok context >>= A level) (t :: cs) b rest := by
  have hexpect : Reaches (fun _ => expect tok context) (t :: cs) () cs :=
    reaches_eat ht reaches_pure
  exact hexpect.bind h

end Branches

theorem reaches_rounds {loop : Level → Nat → Parser α}
    (h : Reaches (fun level => loop level cs.length) cs a rest) :
    Reaches (fun level => rounds (loop level)) cs a rest :=
  h

theorem reaches_below (hzero : ∀ c, q exhausted c = .error ⟨.tooDeep maxNesting, c.position⟩)
    (hsucc : ∀ lower, q (raise lower) = p lower) (h : Reaches p cs a rest) :
    Reaches q cs a rest := by
  obtain ⟨ample, h⟩ := h
  refine ⟨ample + 1, fun room last => ?_⟩
  cases room with
  | zero => exact .inr ⟨by omega, _, hzero _⟩
  | succ room =>
    show (∃ last', q (raise (within room)) ⟨cs, last⟩ = _) ∨ _ ∧
      ∃ pos, q (raise (within room)) _ = _
    rw [hsucc]
    rcases h room last with hok | ⟨hshort, herror⟩
    · exact .inl hok
    · exact .inr ⟨by omega, herror⟩

end Level

/-! ### Tokens that go on with a phrase -/

/-- The next token is not in the set. -/
def Stops (p : Token → Bool) (rest : List Located) : Prop := ∀ t ∈ rest.head?, p t.token = false

def extendsAtom : Token → Bool
  | .str _ => true
  | _ => false

def extendsPrimary (t : Token) : Bool :=
  extendsAtom t || t == .symbol .dot || t == .symbol .lParen || t == .symbol .lBracket

def extendsProduct (t : Token) : Bool := extendsPrimary t || (productOp? t).isSome

def extendsSum (t : Token) : Bool := extendsProduct t || (sumOp? t).isSome

def extendsComparison (t : Token) : Bool := extendsSum t || (compareOp? t).isSome

def extendsFull (t : Token) : Bool := extendsComparison t || t == .keyword .if_

def extendsSeveral (t : Token) : Bool :=
  extendsFull t || t == .symbol .comma || startsExpression t

section Stops

variable {p q : Token → Bool} {t : Located} {tok : Token} {rest : List Located}

theorem stops_cons (ht : t.token = tok) (h : p tok = false) : Stops p (t :: rest) := by
  rintro _ ⟨⟩
  rw [ht, h]

theorem Stops.mono (h : Stops p rest) (hpq : ∀ t, p t = false → q t = false) : Stops q rest :=
  fun t ht => hpq _ (h t ht)

theorem Stops.ne (h : Stops p rest) (hp : p tok = true) : ∀ t ∈ rest.head?, t.token ≠ tok := by
  rintro t ht rfl
  simp [h t ht] at hp

theorem Stops.primary (h : Stops extendsPrimary rest) : Stops extendsAtom rest :=
  h.mono fun t ht => by simp_all [extendsPrimary]

theorem Stops.product (h : Stops extendsProduct rest) : Stops extendsPrimary rest :=
  h.mono fun t ht => by simp_all [extendsProduct]

theorem Stops.sum (h : Stops extendsSum rest) : Stops extendsProduct rest :=
  h.mono fun t ht => by simp_all [extendsSum]

theorem Stops.comparison (h : Stops extendsComparison rest) : Stops extendsSum rest :=
  h.mono fun t ht => by simp_all [extendsComparison]

theorem Stops.full (h : Stops extendsFull rest) : Stops extendsComparison rest :=
  h.mono fun t ht => by simp_all [extendsFull]

theorem Stops.several (h : Stops extendsSeveral rest) : Stops extendsFull rest :=
  h.mono fun t ht => by simp_all [extendsSeveral]

theorem Stops.bind_eq_none {op? : Token → Option α} (h : Stops p rest)
    (hp : ∀ t, p t = false → op? t = none) : (rest.head?.map Located.token).bind op? = none := by
  rcases rest with _ | ⟨t, rest⟩
  · rfl
  · exact hp _ (h t rfl)

end Stops

/-! ### Operators -/

theorem sumOp?_symbol (h : (s, op) ∈ sumOperators) :
    sumOp? (.symbol s) = some op ∧ extendsProduct (.symbol s) = false := by
  simp only [sumOperators, mem_cons, Prod.mk.injEq, not_mem_nil, or_false] at h
  rcases h with ⟨rfl, rfl⟩ | ⟨rfl, rfl⟩ <;> decide

theorem productOp?_symbol (h : (s, op) ∈ productOperators) :
    productOp? (.symbol s) = some op ∧ extendsPrimary (.symbol s) = false := by
  simp only [productOperators, mem_cons, Prod.mk.injEq, not_mem_nil, or_false] at h
  rcases h with ⟨rfl, rfl⟩ | ⟨rfl, rfl⟩ | ⟨rfl, rfl⟩ <;> decide

theorem compareOp?_symbol {op : CompareOp} (h : (s, op) ∈ compareOperators) :
    compareOp? (.symbol s) = some op ∧ extendsSum (.symbol s) = false := by
  simp only [compareOperators, mem_cons, Prod.mk.injEq, not_mem_nil, or_false] at h
  rcases h with ⟨rfl, rfl⟩ | ⟨rfl, rfl⟩ | ⟨rfl, rfl⟩ | ⟨rfl, rfl⟩ | ⟨rfl, rfl⟩ |
    ⟨rfl, rfl⟩ <;> decide

namespace Level

/-! ### Loops -/

variable {cs mid rest rest' : List Located} {e a b : Expr} {t : Located}
  {item : Level → Parser Expr} {ts : List Located} {es : List Expr}

theorem reaches_full (h : Reaches conditional cs e rest) : Reaches Level.full cs e rest :=
  reaches_below (fun _ => rfl) (fun _ => rfl) h

theorem reaches_suffixes (ht : t.token = .symbol .dot ∨ t.token = .symbol .lParen ∨
      t.token = .symbol .lBracket) (h : Reaches (oneSuffix · e) (t :: cs) a mid)
    (hmore : Reaches (suffixes · a) mid b rest) : Reaches (suffixes · e) (t :: cs) b rest := by
  have hsuffix : Reaches (fun level => level.suffix e) (t :: cs) b rest :=
    reaches_below (fun _ => rfl) (fun _ => rfl) (h.bind hmore)
  rcases ht with ht | ht | ht <;> exact reaches_peek ht hsuffix

theorem reaches_suffixes_stop {lower : Level → Level} (h : Stops extendsPrimary rest) :
    Reaches (fun level => suffixes (lower level) e) rest e rest := by
  refine reaches_peek_head ?_
  split
  case h_4 => exact reaches_pure
  all_goals
    next heq =>
    obtain ⟨t, ht, heq⟩ := Option.map_eq_some_iff.1 heq
    exact absurd heq (h.ne rfl t ht)

theorem reaches_factors (ht : t.token = .symbol s) (hop : (s, op) ∈ productOperators)
    (h : Reaches unary cs b mid) (hmore : Reaches (factors · (.binary op a b)) mid e rest) :
    Reaches (factors · a) (t :: cs) e rest := by
  refine reaches_peek ht ?_
  rw [Option.bind_some, (productOp?_symbol hop).1]
  exact reaches_advance (reaches_below (fun _ => rfl) (fun _ => rfl) (h.bind hmore))

theorem reaches_factors_stop {lower : Level → Level} (h : Stops extendsProduct rest) :
    Reaches (fun level => factors (lower level) e) rest e rest := by
  refine reaches_peek_head ?_
  rw [h.bind_eq_none fun t ht => by simp_all [extendsProduct]]
  exact reaches_pure

theorem reaches_summands (ht : t.token = .symbol s) (hop : (s, op) ∈ sumOperators)
    (h : Reaches product cs b mid) (hmore : Reaches (summands · (.binary op a b)) mid e rest) :
    Reaches (summands · a) (t :: cs) e rest := by
  refine reaches_peek ht ?_
  rw [Option.bind_some, (sumOp?_symbol hop).1]
  exact reaches_advance (reaches_below (fun _ => rfl) (fun _ => rfl) (h.bind hmore))

theorem reaches_summands_stop {lower : Level → Level} (h : Stops extendsSum rest) :
    Reaches (fun level => summands (lower level) e) rest e rest := by
  refine reaches_peek_head ?_
  rw [h.bind_eq_none fun t ht => by simp_all [extendsSum]]
  exact reaches_pure

section Ladder

/-! Each category is made of the one below, if nothing follows that goes on with it. -/

variable {lower : Level → Level}

theorem reaches_unary (hminus : ∀ t ∈ cs.head?, t.token ≠ .symbol .minus)
    (h : Reaches (primary <| lower ·) cs e rest) : Reaches (unary <| lower ·) cs e rest :=
  reaches_eat_else hminus h

theorem reaches_product (h : Reaches (unary <| lower ·) cs e rest)
    (hrest : Stops extendsProduct rest) : Reaches (product <| lower ·) cs e rest :=
  h.bind (reaches_factors_stop hrest)

theorem reaches_sum (h : Reaches (product <| lower ·) cs e rest)
    (hrest : Stops extendsSum rest) : Reaches (sum <| lower ·) cs e rest :=
  h.bind (reaches_summands_stop hrest)

theorem reaches_comparison (h : Reaches (sum <| lower ·) cs e rest)
    (hrest : Stops extendsComparison rest) : Reaches (comparison <| lower ·) cs e rest := by
  refine h.bind (reaches_peek_head ?_)
  rw [hrest.bind_eq_none fun t ht => by simp_all [extendsComparison]]
  exact reaches_pure

theorem reaches_compare {op : CompareOp}
    (ha : Reaches (sum <| lower ·) cs a (t :: mid))
    (ht : compareOp? t.token = some op) (hb : Reaches (sum <| lower ·) mid b rest)
    (hrest : Stops extendsComparison rest) :
    Reaches (comparison <| lower ·) cs (.compare op a b) rest := by
  refine ha.bind (reaches_peek rfl ?_)
  rw [Option.bind_some, ht]
  refine reaches_advance (hb.bind (reaches_peek_head ?_))
  rw [hrest.bind_eq_none fun t ht => by simp_all [extendsComparison]]
  exact reaches_pure

theorem reaches_negation (hnot : ∀ t ∈ cs.head?, t.token ≠ .keyword .not)
    (h : Reaches (comparison <| lower ·) cs e rest) : Reaches (negation <| lower ·) cs e rest :=
  reaches_eat_else hnot h

theorem reaches_conditional (h : Reaches (negation <| lower ·) cs e rest)
    (hrest : Stops extendsFull rest) : Reaches (conditional <| lower ·) cs e rest :=
  h.bind (reaches_eat_else (hrest.ne rfl) reaches_pure)

theorem reaches_ifElse {mid' : List Located} {i k : Located}
    (hthen : Reaches (negation <| lower ·) cs a (i :: mid))
    (hi : i.token = .keyword .if_)
    (hcond : Reaches (negation <| lower ·) mid b (k :: mid'))
    (hk : k.token = .keyword .else_)
    (helse : Reaches (fun level => (lower level).full) mid' e rest) :
    Reaches (conditional <| lower ·) cs (.ifElse b a e) rest :=
  hthen.bind (reaches_eat hi (hcond.bind (reaches_expect hk (helse.bind reaches_pure))))

theorem reaches_tuple (h : Reaches item cs e (t :: mid)) (ht : t.token = .symbol .comma)
    (hmore : Reaches (fun level => moreItems (item level) (mid.length + 1)) (t :: mid) es rest) :
    Reaches (fun level => expressionList (item level)) cs (.tuple (e :: es)) rest :=
  h.bind (reaches_isNext ht ((reaches_rounds hmore).bind reaches_pure))

theorem reaches_parens {l r : Located} (hl : l.token = .symbol .lParen)
    (hne : ∀ t ∈ cs.head?, t.token ≠ .symbol .rParen)
    (h : Reaches (fun level => expressionList (lower level).full) cs e (r :: rest))
    (hr : r.token = .symbol .rParen) : Reaches (atom <| lower ·) (l :: cs) e rest := by
  refine reaches_peek hl (reaches_advance (reaches_eat_else hne ?_))
  exact h.bind (reaches_expect hr reaches_pure)

end Ladder

theorem reaches_moreStrings (more : List String) (s : String)
    (hts : ts.map Located.token = more.map Token.str) (hrest : Stops extendsAtom rest) {n : Nat}
    (hn : ts.length ≤ n) :
    Reaches (fun _ => moreStrings s n) (ts ++ rest) (more.foldl (· ++ ·) s) rest := by
  induction more generalizing s ts n with
  | nil =>
    obtain rfl : ts = [] := by simpa using hts
    cases n with
    | zero => exact reaches_pure
    | succ n =>
      refine reaches_peek_head ?_
      split
      · next heq =>
        obtain ⟨t, ht, heq⟩ := Option.map_eq_some_iff.1 heq
        exact absurd heq (hrest.ne rfl t ht)
      · exact reaches_pure
  | cons x more ih =>
    rcases ts with _ | ⟨t, ts⟩
    · cases hts
    · obtain ⟨ht, hts⟩ : t.token = .str x ∧ ts.map Located.token = more.map Token.str := by
        simpa using hts
      cases n with
      | zero => cases hn
      | succ n =>
        exact reaches_peek ht (reaches_advance (ih (s ++ x) hts (Nat.le_of_succ_le_succ hn)))

/-! ### Lists -/

section Lists

variable {α : Type} {p : Level → Parser α} {x : α} {xs : List α} {tok : Token} {k close : Located}
  {n : Nat} {sofar sofar' : Arguments}

theorem reaches_itemsUntil_nil (hclose : close.token = tok) :
    Reaches (fun level => itemsUntil tok (p level) (n + 1)) (close :: rest) [] (close :: rest) :=
  reaches_isNext hclose reaches_pure

theorem reaches_itemsUntil_last (hne : ∀ t ∈ cs.head?, t.token ≠ tok)
    (h : Reaches p cs x (close :: rest)) (hclose : close.token ≠ .symbol .comma) :
    Reaches (fun level => itemsUntil tok (p level) (n + 1)) cs [x] (close :: rest) := by
  refine reaches_isNext_else hne (h.bind (reaches_eat_else ?_ reaches_pure))
  rintro _ ⟨⟩
  exact hclose

theorem reaches_itemsUntil_cons (hne : ∀ t ∈ cs.head?, t.token ≠ tok)
    (h : Reaches p cs x (k :: mid)) (hk : k.token = .symbol .comma)
    (hmore : Reaches (fun level => itemsUntil tok (p level) n) mid xs rest) :
    Reaches (fun level => itemsUntil tok (p level) (n + 1)) cs (x :: xs) rest :=
  reaches_isNext_else hne (h.bind (reaches_eat hk (hmore.bind reaches_pure)))

theorem reaches_display (h : ∀ n, cs.length ≤ n →
      Reaches (fun level => itemsUntil tok (p level) n) cs xs (close :: rest))
    (hclose : close.token = tok) :
    Reaches (fun level => display tok context (p level)) cs xs rest :=
  (reaches_rounds (h _ (Nat.le_refl _))).bind (reaches_expect hclose reaches_pure)

theorem reaches_pair {key value : Expr} (hkey : Reaches Level.full cs key (k :: mid))
    (hk : k.token = .symbol .colon) (hvalue : Reaches Level.full mid value rest) :
    Reaches (fun level => pair level.full) cs (key, value) rest :=
  hkey.bind (reaches_expect hk (hvalue.bind reaches_pure))

theorem reaches_moreItems_nil (hk : k.token = .symbol .comma) (h : Stops startsExpression rest) :
    Reaches (fun level => moreItems (item level) (n + 1)) (k :: rest) [] rest := by
  refine reaches_eat hk (reaches_peek_head ?_)
  have hstart : (((rest.head?.map Located.token).map startsExpression).getD false) = false := by
    rcases rest with _ | ⟨t, rest⟩
    · rfl
    · exact h t rfl
  rw [hstart]
  exact reaches_pure

theorem reaches_moreItems_cons (hk : k.token = .symbol .comma)
    (ht : startsExpression t.token = true) (h : Reaches item (t :: cs) e mid)
    (hmore : Reaches (fun level => moreItems (item level) n) mid es rest) :
    Reaches (fun level => moreItems (item level) (n + 1)) (k :: t :: cs) (e :: es) rest := by
  refine reaches_eat hk (reaches_peek rfl ?_)
  rw [Option.map_some, Option.getD_some, ht]
  exact h.bind (hmore.bind reaches_pure)

theorem reaches_moreItems_stop (h : ∀ t ∈ rest.head?, t.token ≠ .symbol .comma) :
    Reaches (fun level => moreItems (item level) n) rest [] rest := by
  cases n with
  | zero => exact reaches_pure
  | succ n => exact reaches_eat_else h reaches_pure

theorem reaches_argument (hbegins : (Phrase.full e).Begins ts)
    (h : Reaches Level.full (ts ++ k :: rest) e (k :: rest)) (hk : k.token ≠ .symbol .assign)
    (hsofar : sofar.kwargs = []) :
    Reaches (fun level => argument level.full sofar) (ts ++ k :: rest)
      { sofar with args := sofar.args ++ [e] } (k :: rest) := by
  have hkeyword (last : Position) :
      keyword? ⟨ts ++ k :: rest, last⟩ = .ok (none, ⟨ts ++ k :: rest, last⟩) := by
    unfold keyword?
    split
    · next x p q more heq => exact absurd rfl ((hbegins.append hk).second _ _ more x heq rfl)
    · rfl
  refine reaches_step (fun last => ⟨last, hkeyword last⟩) ?_
  rw [hsofar, isEmpty_nil]
  exact h.bind reaches_pure

theorem reaches_argument_keyword {s : String} {a : Located} (ht : t.token = .ident s)
    (ha : a.token = .symbol .assign) (hnew : s ∉ sofar.kwargs.map Prod.fst)
    (h : Reaches Level.full cs e rest) :
    Reaches (fun level => argument level.full sofar) (t :: a :: cs)
      { sofar with kwargs := sofar.kwargs ++ [(s, e)] } rest := by
  obtain ⟨_, p⟩ := t
  obtain ⟨_, q⟩ := a
  cases ht
  cases ha
  have hany : (sofar.kwargs.any fun k => k.1 == s) = false :=
    any_eq_false.2 fun k hk heq => hnew (mem_map.2 ⟨k, hk, by simpa using heq⟩)
  refine reaches_step (a := some s) (fun last => ⟨last, rfl⟩) (reaches_advance ?_)
  rw [hany]
  exact reaches_advance (h.bind reaches_pure)

theorem reaches_arguments_nil (hclose : close.token = .symbol .rParen) :
    Reaches (fun level => arguments level.full sofar (n + 1)) (close :: rest) sofar
      (close :: rest) :=
  reaches_isNext hclose reaches_pure

theorem reaches_arguments_last (hne : ∀ t ∈ cs.head?, t.token ≠ .symbol .rParen)
    (h : Reaches (fun level => argument level.full sofar) cs sofar' (close :: rest))
    (hclose : close.token = .symbol .rParen) :
    Reaches (fun level => arguments level.full sofar (n + 1)) cs sofar' (close :: rest) := by
  refine reaches_isNext_else hne (h.bind (reaches_eat_else ?_ reaches_pure))
  rintro _ ⟨⟩
  simp [hclose]

theorem reaches_arguments_cons {after : Arguments} (hne : ∀ t ∈ cs.head?, t.token ≠ .symbol .rParen)
    (h : Reaches (fun level => argument level.full sofar) cs sofar' (k :: mid))
    (hk : k.token = .symbol .comma)
    (hmore : Reaches (fun level => arguments level.full sofar' n) mid after rest) :
    Reaches (fun level => arguments level.full sofar (n + 1)) cs after rest :=
  reaches_isNext_else hne (h.bind (reaches_eat hk hmore))

theorem reaches_callArguments {a : Arguments}
    (h : ∀ n, cs.length ≤ n →
      Reaches (fun level => arguments level.full {} n) cs a (close :: rest))
    (hclose : close.token = .symbol .rParen) (hargs : a.args.length ≤ 255)
    (hkwargs : a.kwargs.length ≤ 255) :
    Reaches (fun level => callArguments level.full) cs a rest := by
  refine (reaches_rounds (h _ (Nat.le_refl _))).bind (reaches_expect hclose ?_)
  rw [if_neg (by omega)]
  exact reaches_pure

end Lists

/-! ### Phrases -/

/-- The tokens are parsed to the tree, if the next token cannot belong to a longer phrase. -/
def Accepts (p : Phrase) (ts : List Located) : Prop :=
  match p with
  | .atom e => ∀ rest, Stops extendsAtom rest → Reaches atom (ts ++ rest) e rest
  | .primary e => ∀ rest a rest', Stops extendsAtom rest → Reaches (suffixes · e) rest a rest' →
      Reaches primary (ts ++ rest) a rest'
  | .unary e => ∀ rest, Stops extendsPrimary rest → Reaches unary (ts ++ rest) e rest
  | .product e => ∀ rest a rest', Stops extendsPrimary rest → Reaches (factors · e) rest a rest' →
      Reaches product (ts ++ rest) a rest'
  | .sum e => ∀ rest a rest', Stops extendsProduct rest → Reaches (summands · e) rest a rest' →
      Reaches sum (ts ++ rest) a rest'
  | .comparison e => ∀ rest, Stops extendsComparison rest → Reaches comparison (ts ++ rest) e rest
  | .negation e => ∀ rest, Stops extendsComparison rest → Reaches negation (ts ++ rest) e rest
  | .full e => ∀ rest, Stops extendsFull rest → Reaches Level.full (ts ++ rest) e rest
  | .several e => ∀ rest, Stops extendsSeveral rest →
      Reaches (fun level => expressionList level.full) (ts ++ rest) e rest
  | .items es =>
      (∀ close rest n, close.token = .symbol .rBracket → ts.length < n →
        Reaches (fun level => itemsUntil (.symbol .rBracket) level.full n) (ts ++ close :: rest) es
          (close :: rest)) ∧
      ∀ k rest n, k.token = .symbol .comma → Stops extendsSeveral rest → ts.length < n →
        Reaches (fun level => moreItems level.full n) (k :: (ts ++ rest)) es rest
  | .pairs ps => ∀ close rest n, close.token = .symbol .rBrace → ts.length < n →
      Reaches (fun level => itemsUntil (.symbol .rBrace) (pair level.full) n) (ts ++ close :: rest)
        ps (close :: rest)
  | .arguments args kwargs => ∀ sofar close rest n, close.token = .symbol .rParen →
      (sofar.kwargs = [] ∨ args = []) → ((sofar.kwargs ++ kwargs).map Prod.fst).Nodup →
      ts.length < n →
      Reaches (fun level => arguments level.full sofar n) (ts ++ close :: rest)
        ⟨sofar.args ++ args, sofar.kwargs ++ kwargs⟩ (close :: rest)

theorem accepts_of_spells {p : Phrase} (h : Spells p ts) : Accepts p ts := by
  induction h with
  | integer h | float h | none h | true h | false h | name h =>
    intro rest _
    exact reaches_peek h (reaches_advance reaches_pure)
  | @strings ts s more h =>
    intro rest hrest
    rcases ts with _ | ⟨t, ts⟩
    · cases h
    · obtain ⟨ht, hts⟩ : t.token = .str s ∧ ts.map Located.token = more.map Token.str := by
        simpa using h
      have hjoin : String.join (s :: more) = more.foldl (· ++ ·) s := by simp [String.join]
      rw [hjoin]
      refine reaches_peek ht (reaches_advance (Reaches.bind (reaches_rounds ?_) reaches_pure))
      exact reaches_moreStrings more s hts hrest (by simp)
  | unit hl hr =>
    intro rest _
    exact reaches_peek hl (reaches_advance (reaches_eat hr reaches_pure))
  | @parens l r e ts hl h hr ih =>
    intro rest _
    rw [cons_append, append_assoc]
    exact reaches_parens hl (h.head_ne trivial rfl _) (ih _ (stops_cons hr rfl)) hr
  | @list l r es ts hl h hr ih =>
    intro rest _
    rw [cons_append, append_assoc]
    refine reaches_peek hl (reaches_advance (.bind (reaches_display (fun n hn => ?_) hr)
      reaches_pure))
    exact ih.1 r rest n hr (by simp at hn; omega)
  | @dict l r ps ts hl h hr ih =>
    intro rest _
    rw [cons_append, append_assoc]
    refine reaches_peek hl (reaches_advance (.bind (reaches_display (fun n hn => ?_) hr)
      reaches_pure))
    exact ih r rest n hr (by simp at hn; omega)
  | ofAtom h ih | ofUnary h ih => exact fun rest a rest' hrest hmore => (ih rest hrest).bind hmore
  | @member e ts d t x h hd ht ih =>
    intro rest a rest' hrest hmore
    rw [append_assoc]
    refine ih _ a rest' (stops_cons hd rfl) (reaches_suffixes (.inl hd) ?_ hmore)
    refine reaches_advance ?_
    rw [hd]
    refine reaches_advance ?_
    rw [ht]
    exact reaches_pure
  | @call f args kwargs ts us l r h hl hargs hr hdistinct hargsLength hkwargsLength ih ihargs =>
    intro rest a rest' hrest hmore
    rw [append_assoc, cons_append, append_assoc]
    refine ih _ a rest' (stops_cons hl rfl) (reaches_suffixes (.inr (.inl hl)) ?_ hmore)
    refine reaches_advance ?_
    rw [hl]
    have hread (n : Nat) (hn : (us ++ ([r] ++ rest)).length ≤ n) :=
      ihargs {} r rest n hr (.inl rfl) hdistinct (by simp at hn; omega)
    exact (reaches_callArguments hread hr hargsLength hkwargsLength).bind reaches_pure
  | @subscript e key ts us l r h hl hkey hr ih ihkey =>
    intro rest a rest' hrest hmore
    rw [append_assoc, cons_append, append_assoc]
    refine ih _ a rest' (stops_cons hl rfl) (reaches_suffixes (.inr (.inr hl)) ?_ hmore)
    refine reaches_advance ?_
    rw [hl]
    exact (ihkey (r :: rest) (stops_cons hr rfl)).bind (reaches_expect hr reaches_pure)
  | ofPrimary h ih =>
    intro rest hrest
    refine reaches_eat_else ((h.begins trivial).head_ne (by simp [Phrase.Opens]) rest) ?_
    exact ih rest _ rest hrest.primary (reaches_suffixes_stop hrest)
  | minusInteger ht h ih | minusFloat ht h ih =>
    intro rest hrest
    have hoperand : Reaches Level.minusOperand _ _ rest :=
      reaches_below (fun _ => rfl) (fun _ => rfl) (ih rest hrest)
    exact reaches_eat ht (hoperand.bind reaches_pure)
  | @minus t e ts ht h hne ih =>
    intro rest hrest
    have hoperand : Reaches Level.minusOperand _ _ rest :=
      reaches_below (fun _ => rfl) (fun _ => rfl) (ih rest hrest)
    have hnegated : negated e = .negate e := by
      unfold negated
      split
      · exact absurd (.inl ⟨_, rfl⟩) hne
      · exact absurd (.inr ⟨_, rfl⟩) hne
      · rfl
    rw [← hnegated]
    exact reaches_eat ht (hoperand.bind reaches_pure)
  | @times t s op a b ts us ha ht hop hb iha ihb =>
    intro rest e rest' hrest hmore
    rw [append_assoc]
    refine iha _ e rest' (stops_cons ht (productOp?_symbol hop).2) ?_
    exact reaches_factors ht hop (ihb rest hrest) hmore
  | ofProduct h ih =>
    intro rest a rest' hrest hmore
    exact (ih rest _ rest hrest.product (reaches_factors_stop hrest)).bind hmore
  | @plus t s op a b ts us ha ht hop hb iha ihb =>
    intro rest e rest' hrest hmore
    rw [append_assoc]
    refine iha _ e rest' (stops_cons ht (sumOp?_symbol hop).2) (reaches_summands ht hop ?_ hmore)
    exact ihb rest _ rest hrest.product (reaches_factors_stop hrest)
  | ofSum h ih =>
    intro rest hrest
    have hsum := ih rest _ rest hrest.comparison.sum (reaches_summands_stop hrest.comparison)
    exact reaches_comparison hsum hrest
  | @compare t s op a b ts us ha ht hop hb iha ihb =>
    intro rest hrest
    obtain ⟨hop, hstop⟩ := compareOp?_symbol hop
    rw [append_assoc]
    have hleft := iha (t :: (us ++ rest)) _ _ (stops_cons ht hstop).sum
      (reaches_summands_stop (stops_cons ht hstop))
    have hright := ihb rest _ _ hrest.comparison.sum (reaches_summands_stop hrest.comparison)
    exact reaches_compare hleft (by rw [ht, hop]) hright hrest
  | ofComparison h ih =>
    intro rest hrest
    refine reaches_eat_else ((h.begins trivial).head_ne (by simp [Phrase.Opens]) rest) ?_
    exact ih rest hrest
  | not ht h ih =>
    intro rest hrest
    have hoperand : Reaches Level.notOperand _ _ rest :=
      reaches_below (fun _ => rfl) (fun _ => rfl) (ih rest hrest)
    exact reaches_eat ht (hoperand.bind reaches_pure)
  | ofNegation h ih =>
    intro rest hrest
    exact reaches_full (reaches_conditional (ih rest hrest.full) hrest)
  | @ifElse i j cond then_ else_ ts us vs hthen hi hcond hj helse ihthen ihcond ihelse =>
    intro rest hrest
    rw [append_assoc, cons_append, append_assoc]
    exact reaches_full (reaches_ifElse (ihthen _ (stops_cons hi rfl)) hi
      (ihcond _ (stops_cons hj rfl)) hj (ihelse rest hrest))
  | one h ih =>
    intro rest hrest
    have hcomma : ∀ t ∈ rest.head?, t.token ≠ .symbol .comma := hrest.ne rfl
    exact (ih rest hrest.several).bind (reaches_isNext_else hcomma reaches_pure)
  | @tuple e es k ts us h hk hes ih ihes =>
    intro rest hrest
    rw [append_assoc]
    exact reaches_tuple (ih _ (stops_cons hk rfl)) hk (ihes.2 k rest _ hk hrest (by simp))
  | noItem =>
    refine ⟨fun close rest n hclose hn => ?_, fun k rest n hk hrest hn => ?_⟩
    · obtain ⟨n, rfl⟩ := Nat.exists_eq_add_of_lt hn
      exact reaches_itemsUntil_nil hclose
    · obtain ⟨n, rfl⟩ := Nat.exists_eq_add_of_lt hn
      exact reaches_moreItems_nil hk (hrest.mono fun t ht => by simp_all [extendsSeveral])
  | @lastItem e ts h ih =>
    refine ⟨fun close rest n hclose hn => ?_, fun k rest n hk hrest hn => ?_⟩
    · obtain ⟨n, rfl⟩ := Nat.exists_eq_add_of_lt hn
      exact reaches_itemsUntil_last (h.head_ne trivial rfl _)
        (ih _ (stops_cons hclose rfl)) (by simp [hclose])
    · obtain ⟨n, rfl⟩ := Nat.exists_eq_add_of_lt hn
      have hread := ih rest hrest.several
      obtain ⟨t, us, rfl, ht⟩ := (h.begins trivial).first
      exact reaches_moreItems_cons hk ht hread (reaches_moreItems_stop (hrest.ne rfl))
  | @item e es k ts us h hk hes ih ihes =>
    refine ⟨fun close rest n hclose hn => ?_, fun k' rest n hk' hrest hn => ?_⟩
    · obtain ⟨n, rfl⟩ := Nat.exists_eq_add_of_lt hn
      rw [append_assoc]
      refine reaches_itemsUntil_cons (h.head_ne trivial rfl _)
        (ih _ (stops_cons hk rfl)) hk (ihes.1 close rest _ hclose ?_)
      simp only [length_append, length_cons]
      omega
    · obtain ⟨n, rfl⟩ := Nat.exists_eq_add_of_lt hn
      rw [append_assoc]
      have hread := ih (k :: (us ++ rest)) (stops_cons hk rfl)
      have hmore := ihes.2 k rest ((ts ++ k :: us).length + n) hk hrest
        (by simp only [length_append, length_cons]; omega)
      obtain ⟨t, vs, rfl, ht⟩ := (h.begins trivial).first
      exact reaches_moreItems_cons hk' ht hread hmore
  | noPair =>
    intro close rest n hclose hn
    obtain ⟨n, rfl⟩ := Nat.exists_eq_add_of_lt hn
    exact reaches_itemsUntil_nil hclose
  | @lastPair key value c ts us hkey hc hvalue ihkey ihvalue =>
    intro close rest n hclose hn
    obtain ⟨n, rfl⟩ := Nat.exists_eq_add_of_lt hn
    rw [append_assoc]
    refine reaches_itemsUntil_last (hkey.head_ne trivial rfl _) ?_ (by simp [hclose])
    exact reaches_pair (ihkey _ (stops_cons hc rfl)) hc (ihvalue _ (stops_cons hclose rfl))
  | @pair key value ps c k ts us vs hkey hc hvalue hk hps ihkey ihvalue ihps =>
    intro close rest n hclose hn
    obtain ⟨n, rfl⟩ := Nat.exists_eq_add_of_lt hn
    simp only [append_assoc, cons_append]
    refine reaches_itemsUntil_cons (hkey.head_ne trivial rfl _) ?_ hk (ihps close rest _ hclose ?_)
    · exact reaches_pair (ihkey _ (stops_cons hc rfl)) hc (ihvalue _ (stops_cons hk rfl))
    · simp only [length_append, length_cons]
      omega
  | noArgument =>
    intro sofar close rest n hclose _ _ hn
    obtain ⟨n, rfl⟩ := Nat.exists_eq_add_of_lt hn
    rw [append_nil, append_nil]
    exact reaches_arguments_nil hclose
  | @lastArgument e ts h ih =>
    intro sofar close rest n hclose hsofar _ hn
    obtain ⟨n, rfl⟩ := Nat.exists_eq_add_of_lt hn
    rw [append_nil]
    refine reaches_arguments_last (h.head_ne trivial rfl _)
      (reaches_argument (h.begins trivial) (ih _ (stops_cons hclose rfl)) ?_ ?_) hclose
    · simp [hclose]
    · simpa using hsofar
  | @argument e args kwargs k ts us h hk hargs ih ihargs =>
    intro sofar close rest n hclose hsofar hdistinct hn
    obtain ⟨n, rfl⟩ := Nat.exists_eq_add_of_lt hn
    have hnone : sofar.kwargs = [] := by simpa using hsofar
    rw [append_assoc]
    refine reaches_arguments_cons (h.head_ne trivial rfl _)
      (reaches_argument (h.begins trivial) (ih _ (stops_cons hk rfl)) (by simp [hk]) hnone) hk ?_
    rw [append_cons sofar.args e args]
    refine ihargs { sofar with args := sofar.args ++ [e] } close rest _ hclose (.inl hnone)
      hdistinct ?_
    simp only [length_append, length_cons]
    omega
  | @lastKeyword x value t a ts ht ha h ih =>
    intro sofar close rest n hclose _ hdistinct hn
    obtain ⟨n, rfl⟩ := Nat.exists_eq_add_of_lt hn
    have hnew : x ∉ sofar.kwargs.map Prod.fst := by
      rw [map_append, nodup_append] at hdistinct
      exact fun hmem => hdistinct.2.2 x hmem x (by simp) rfl
    rw [append_nil]
    exact reaches_arguments_last (head_ne ht (by simp) _)
      (reaches_argument_keyword ht ha hnew (ih _ (stops_cons hclose rfl))) hclose
  | @keyword x value kwargs t a k ts us ht ha h hk hkwargs ih ihkwargs =>
    intro sofar close rest n hclose _ hdistinct hn
    obtain ⟨n, rfl⟩ := Nat.exists_eq_add_of_lt hn
    have hnew : x ∉ sofar.kwargs.map Prod.fst := by
      rw [map_append, nodup_append] at hdistinct
      exact fun hmem => hdistinct.2.2 x hmem x (by simp) rfl
    rw [append_assoc]
    refine reaches_arguments_cons (head_ne ht (by simp) _)
      (reaches_argument_keyword ht ha hnew (ih _ (stops_cons hk rfl))) hk ?_
    rw [append_cons sofar.kwargs (x, value) kwargs] at hdistinct ⊢
    refine ihkwargs { sofar with kwargs := sofar.kwargs ++ [(x, value)] } close rest _ hclose
      (.inr rfl) hdistinct ?_
    simp only [length_append, length_cons]
    omega

end Level

end Parser

end Bytewright
