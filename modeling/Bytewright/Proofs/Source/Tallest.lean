import Bytewright.Proofs.Source.Positions
import Bytewright.Proofs.Source.Render

/-!
# The highest tree

The bound on heights is reached: one behind the other, three chains add the room three times to what
stands in the parentheses before them, for which there is one unit less.
-/

namespace Bytewright

open List

namespace Parser

/-! ### Trees -/

theorem height_iterate {f : Expr → Expr} (hf : ∀ e, (f e).height = e.height + 1) (n : Nat)
    (e : Expr) : (Nat.iterate f n e).height = e.height + n := by
  induction n generalizing e with
  | zero => rfl
  | succ n ih => rw [Nat.iterate, ih, hf, Nat.add_right_comm, Nat.add_assoc]

def withMember (e : Expr) : Expr := .attribute e "a"

def withOperand (op : ArithOp) (e : Expr) : Expr := .binary op e (.name "a")

theorem height_withMember (e : Expr) : (withMember e).height = e.height + 1 := rfl

theorem height_withOperand (op : ArithOp) (e : Expr) :
    (withOperand op e).height = e.height + 1 := by
  have := e.height_pos
  simp only [withOperand, Expr.height]
  omega

def chained (n : Nat) (e : Expr) : Expr :=
  Nat.iterate (withOperand .add) n (Nat.iterate (withOperand .multiply) n
    (Nat.iterate withMember n e))

theorem height_chained (n : Nat) (e : Expr) : (chained n e).height = e.height + 3 * n := by
  rw [chained, height_iterate (height_withOperand _), height_iterate (height_withOperand _),
    height_iterate height_withMember]
  omega

def towerTree : Nat → Expr
  | 0 => .compare .lt (.name "a") (.name "a")
  | n + 1 => .ifElse (.name "a")
      (.compare .lt (chained (n + 1) (.tuple [towerTree n])) (.name "a")) (.name "a")

theorem height_towerTree (n : Nat) : (towerTree n).height = tallest (n + 1) := by
  induction n with
  | zero => rfl
  | succ n ih =>
    rw [tallest_succ_of_pos (show 0 < n + 1 by omega)]
    simp only [towerTree, Expr.height, heightOfAll, height_chained, ih]
    omega

/-! ### Tokens -/

def chain (s : Symbol) : Nat → List Token
  | 0 => []
  | n + 1 => .symbol s :: .ident "a" :: chain s n

def chains (n : Nat) : List Token := chain .dot n ++ (chain .star n ++ chain .plus n)

def tower : Nat → List Token
  | 0 => [.ident "a", .symbol .lt, .ident "a"]
  | n + 1 => .symbol .lParen :: (tower n ++ .symbol .comma :: .symbol .rParen :: (chains (n + 1) ++
        [.symbol .lt, .ident "a", .keyword .if_, .ident "a", .keyword .else_, .ident "a"]))

theorem legible_a : (Token.ident "a").Legible := by decide

theorem legible_of_mem_chain {s : Symbol} {n : Nat} {t : Token} (h : t ∈ chain s n) :
    t.Legible := by
  induction n with
  | zero => cases h
  | succ n ih =>
    simp only [chain, mem_cons] at h
    rcases h with rfl | rfl | h
    · trivial
    · exact legible_a
    · exact ih h

theorem legible_of_mem_chains {n : Nat} {t : Token} (h : t ∈ chains n) : t.Legible := by
  simp only [chains, mem_append] at h
  rcases h with h | h | h <;> exact legible_of_mem_chain h

theorem legible_of_mem_tower {n : Nat} {t : Token} (h : t ∈ tower n) : t.Legible := by
  induction n with
  | zero =>
    revert h
    revert t
    decide
  | succ n ih =>
    simp only [tower, mem_cons, mem_append, not_mem_nil, or_false] at h
    rcases h with rfl | h | rfl | rfl | h | rfl | rfl | rfl | rfl | rfl | rfl
    case inr.inl => exact ih h
    case inr.inr.inr.inr.inl => exact legible_of_mem_chains h
    all_goals decide

namespace Level

variable {lower : Level} {cs mid rest ts : List Located} {e a b : Expr} {t : Located}

/-! ### Names -/

section Name

/-! A name is an expression of every category. -/

variable {x : String} (ht : t.token = .ident x)
include ht

theorem returns_atom_name : Returns (atom lower) (t :: rest) (.name x) rest :=
  reaches_peek ht (reaches_advance reaches_pure)

theorem returns_unary_name (h : Stops extendsPrimary rest) :
    Returns (unary lower) (t :: rest) (.name x) rest :=
  reaches_unary (head_ne ht (by simp) _)
    ((returns_atom_name ht).bind (reaches_suffixes_stop h))

theorem returns_product_name (h : Stops extendsProduct rest) :
    Returns (product lower) (t :: rest) (.name x) rest :=
  reaches_product (returns_unary_name ht h.product) h

theorem returns_sum_name (h : Stops extendsSum rest) :
    Returns (sum lower) (t :: rest) (.name x) rest :=
  reaches_sum (returns_product_name ht h.sum) h

theorem returns_negation_name (h : Stops extendsComparison rest) :
    Returns (negation lower) (t :: rest) (.name x) rest :=
  reaches_negation (head_ne ht (by simp) _)
    (reaches_comparison (returns_sum_name ht h.comparison) h)

theorem returns_conditional_name (h : Stops extendsFull rest) :
    Returns (conditional lower) (t :: rest) (.name x) rest :=
  reaches_conditional (returns_negation_name ht h.full) h

end Name

/-! ### Chains -/

section Chains

variable {s : Symbol} {n room : Nat}

theorem exists_of_chain_succ (hts : ts.map Located.token = chain s (n + 1)) :
    ∃ k x us, ts = k :: x :: us ∧ k.token = .symbol s ∧ x.token = .ident "a" ∧
      us.map Located.token = chain s n := by
  obtain ⟨k, us, rfl, hk, hus⟩ := map_eq_cons_iff.1 hts
  obtain ⟨x, us, rfl, hx, hus⟩ := map_eq_cons_iff.1 hus
  exact ⟨k, x, us, rfl, hk, hx, hus⟩

theorem stops_chain {p : Token → Bool} (hs : p (.symbol s) = false)
    (hts : ts.map Located.token = chain s n) (hrest : Stops p rest) : Stops p (ts ++ rest) := by
  cases n with
  | zero =>
    obtain rfl := map_eq_nil_iff.1 hts
    exact hrest
  | succ n =>
    obtain ⟨k, x, us, rfl, hk, -, -⟩ := exists_of_chain_succ hts
    exact stops_cons hk hs

/-- A loop that takes one link of a chain at a time. -/
theorem returns_chain {f : Level → Expr → Parser Expr} {g : Expr → Expr} {p q : Token → Bool}
    (hstop : ∀ level e, Stops p rest → Returns (f level e) rest e rest)
    (hlink : ∀ {room cs e a} {k x : Located}, k.token = .symbol s → x.token = .ident "a" →
      Stops q cs → Returns (f (within room) (g e)) cs a rest →
      Returns (f (within (room + 1)) e) (k :: x :: cs) a rest)
    (hs : q (.symbol s) = false) (hpq : Stops p rest → Stops q rest) (hroom : n ≤ room)
    (hts : ts.map Located.token = chain s n) (hrest : Stops p rest) (e : Expr) :
    Returns (f (within room) e) (ts ++ rest) (Nat.iterate g n e) rest := by
  induction n generalizing room ts e with
  | zero =>
    obtain rfl := map_eq_nil_iff.1 hts
    exact hstop _ e hrest
  | succ n ih =>
    obtain ⟨room, rfl⟩ : ∃ r, room = r + 1 := ⟨room - 1, by omega⟩
    obtain ⟨k, x, us, rfl, hk, hx, hus⟩ := exists_of_chain_succ hts
    exact hlink hk hx (stops_chain hs hus (hpq hrest)) (ih (by omega) hus (g e))

theorem returns_suffixes_chain (hroom : n ≤ room) (hts : ts.map Located.token = chain .dot n)
    (hrest : Stops extendsPrimary rest) (e : Expr) :
    Returns (suffixes (within room) e) (ts ++ rest) (Nat.iterate withMember n e) rest := by
  refine returns_chain (f := suffixes) (fun _ _ => reaches_suffixes_stop)
    (fun {room cs e a k x} hk hx _ hmore => ?_) rfl Stops.primary hroom hts hrest e
  have hone : Returns (oneSuffix (within room) e) (k :: x :: cs) (withMember e) cs := by
    refine reaches_advance ?_
    rw [hk]
    refine reaches_advance ?_
    rw [hx]
    exact reaches_pure
  exact reaches_peek hk (hone.bind hmore)

theorem returns_factors_chain (hroom : n ≤ room) (hts : ts.map Located.token = chain .star n)
    (hrest : Stops extendsProduct rest) (e : Expr) :
    Returns (factors (within room) e) (ts ++ rest) (Nat.iterate (withOperand .multiply) n e)
      rest := by
  refine returns_chain (f := factors) (fun _ _ => reaches_factors_stop)
    (fun hk hx hcs hmore => ?_) rfl Stops.product hroom hts hrest e
  exact reaches_peek hk (reaches_advance ((returns_unary_name hx hcs).bind hmore))

theorem returns_summands_chain (hroom : n ≤ room) (hts : ts.map Located.token = chain .plus n)
    (hrest : Stops extendsSum rest) (e : Expr) :
    Returns (summands (within room) e) (ts ++ rest) (Nat.iterate (withOperand .add) n e) rest := by
  refine returns_chain (f := summands) (fun _ _ => reaches_summands_stop)
    (fun hk hx hcs hmore => ?_) rfl Stops.sum hroom hts hrest e
  exact reaches_peek hk (reaches_advance ((returns_product_name hx hcs).bind hmore))

theorem returns_chained (hts : ts.map Located.token = chains n)
    (hatom : Returns (atom (within room)) cs e (ts ++ rest))
    (hminus : ∀ t ∈ cs.head?, t.token ≠ .symbol .minus) (hroom : n ≤ room)
    (hrest : Stops extendsSum rest) : Returns (sum (within room)) cs (chained n e) rest := by
  obtain ⟨us, vs, rfl, hus, hvs⟩ := map_eq_append_iff.1 hts
  obtain ⟨vs, ws, rfl, hvs, hws⟩ := map_eq_append_iff.1 hvs
  rw [append_assoc, append_assoc] at hatom
  have hafterSuffixes : Stops extendsPrimary (vs ++ (ws ++ rest)) :=
    stops_chain rfl hvs (stops_chain rfl hws hrest.sum.product)
  have hafterFactors : Stops extendsProduct (ws ++ rest) := stops_chain rfl hws hrest.sum
  have hprimary := hatom.bind (returns_suffixes_chain hroom hus hafterSuffixes e)
  have hproduct := (reaches_unary hminus hprimary).bind
    (returns_factors_chain hroom hvs hafterFactors _)
  exact hproduct.bind (returns_summands_chain hroom hws hrest _)

end Chains

/-! ### Towers -/

theorem head_of_tower {n : Nat} (hts : ts.map Located.token = tower n) :
    ∃ t us, ts = t :: us ∧ (t.token = .ident "a" ∨ t.token = .symbol .lParen) := by
  cases n with
  | zero =>
    obtain ⟨t, us, rfl, ht, -⟩ := map_eq_cons_iff.1 hts
    exact ⟨t, us, rfl, .inl ht⟩
  | succ n =>
    obtain ⟨t, us, rfl, ht, -⟩ := map_eq_cons_iff.1 hts
    exact ⟨t, us, rfl, .inr ht⟩

theorem head_ne_of_tower {n : Nat} (hts : ts.map Located.token = tower n) {tok : Token}
    (hname : tok ≠ .ident "a") (hparen : tok ≠ .symbol .lParen) :
    ∀ t ∈ (ts ++ rest).head?, t.token ≠ tok := by
  obtain ⟨t, us, rfl, ht⟩ := head_of_tower hts
  rintro _ ⟨⟩ rfl
  rcases ht with ht | ht
  · exact hname ht
  · exact hparen ht

theorem returns_tower {n : Nat} (hts : ts.map Located.token = tower n)
    (hrest : Stops extendsFull rest) :
    Returns (within (n + 1)).full (ts ++ rest) (towerTree n) rest := by
  induction n generalizing ts rest with
  | zero =>
    obtain ⟨x, us, rfl, hx, hus⟩ := map_eq_cons_iff.1 hts
    obtain ⟨k, us, rfl, hk, hus⟩ := map_eq_cons_iff.1 hus
    obtain ⟨y, us, rfl, hy, hus⟩ := map_eq_cons_iff.1 hus
    obtain rfl := map_eq_nil_iff.1 hus
    have hcomparison : Returns (comparison (within 0)) (x :: k :: y :: rest) (towerTree 0) rest :=
      reaches_compare (returns_sum_name hx (stops_cons hk rfl)) (by rw [hk]; rfl)
        (returns_sum_name hy hrest.full.comparison) hrest.full
    exact reaches_conditional (reaches_negation (head_ne hx (by simp) _) hcomparison) hrest
  | succ n ih =>
    have hhead {tok : Token} (hname : tok ≠ .ident "a") (hparen : tok ≠ .symbol .lParen) :
        ∀ t ∈ (ts ++ rest).head?, t.token ≠ tok := head_ne_of_tower hts hname hparen
    obtain ⟨l, us, rfl, hl, hus⟩ := map_eq_cons_iff.1 hts
    obtain ⟨inner, us, rfl, hinner, hus⟩ := map_eq_append_iff.1 hus
    obtain ⟨c, us, rfl, hc, hus⟩ := map_eq_cons_iff.1 hus
    obtain ⟨r, us, rfl, hr, hus⟩ := map_eq_cons_iff.1 hus
    obtain ⟨links, us, rfl, hlinks, hus⟩ := map_eq_append_iff.1 hus
    obtain ⟨k, us, rfl, hk, hus⟩ := map_eq_cons_iff.1 hus
    obtain ⟨y, us, rfl, hy, hus⟩ := map_eq_cons_iff.1 hus
    obtain ⟨i, us, rfl, hi, hus⟩ := map_eq_cons_iff.1 hus
    obtain ⟨z, us, rfl, hz, hus⟩ := map_eq_cons_iff.1 hus
    obtain ⟨j, us, rfl, hj, hus⟩ := map_eq_cons_iff.1 hus
    obtain ⟨w, us, rfl, hw, hus⟩ := map_eq_cons_iff.1 hus
    obtain rfl := map_eq_nil_iff.1 hus
    simp only [cons_append, append_assoc, nil_append] at hhead ⊢
    have hatom (more : List Located) : Returns (atom (within (n + 1)))
        (l :: (inner ++ c :: r :: more)) (.tuple [towerTree n]) more :=
      reaches_parens hl (head_ne_of_tower hinner (by simp) (by simp))
        (reaches_tuple (ih hinner (stops_cons hc rfl)) hc
          (reaches_moreItems_nil hc (stops_cons hr rfl))) hr
    have hstops : Stops extendsSum (k :: y :: i :: z :: j :: w :: rest) := stops_cons hk rfl
    have hsum := returns_chained hlinks (hatom _) (hhead (by simp) (by simp)) le_rfl hstops
    have hcomparison := reaches_compare hsum (by rw [hk]; rfl)
      (returns_sum_name hy (stops_cons hi rfl)) (stops_cons hi rfl)
    have hthen := reaches_negation (hhead (by simp) (by simp)) hcomparison
    have helse : Returns (within (n + 1)).full (w :: rest) (.name "a") rest :=
      returns_conditional_name hw hrest
    exact reaches_ifElse hthen hi (returns_negation_name hz (stops_cons hj rfl)) hj helse

end Level

theorem parse_tower {n : Nat} (hn : n + 1 = maxNesting) :
    parseExpression (Token.spaced (tower n ++ [.symbol .comma])) = .ok (.tuple [towerTree n]) ∧
      ∃ line, parseStatements (Token.spaced (tower n ++ [.symbol .comma])) =
        .ok [⟨.expr (.tuple [towerTree n]), line⟩] := by
  obtain ⟨t, ts, htower, ht⟩ : ∃ t ts, tower n = t :: ts ∧ startsExpression t = true := by
    cases n <;> exact ⟨_, _, rfl, rfl⟩
  rw [htower, cons_append]
  refine parse_of_renders (Lexer.renders_spaced fun u hu => ?_) ht fun cs last hcs hlast => ?_
  · rw [← cons_append, ← htower, mem_append, mem_singleton] at hu
    rcases hu with hu | rfl
    · exact legible_of_mem_tower hu
    · trivial
  · rw [← cons_append, ← htower] at hcs
    obtain ⟨us, ks, rfl, hus, hks⟩ := map_eq_append_iff.1 hcs
    obtain ⟨k, rfl, hk⟩ := map_eq_singleton_iff.1 hks
    rw [append_assoc, expression, ← hn]
    exact Level.reaches_tuple (Level.returns_tower hus (stops_cons hk rfl)) hk
      (Level.reaches_moreItems_nil hk (stops_cons hlast rfl))

theorem parse_chains {n : Nat} (hn : n + 1 = maxNesting) :
    parseExpression (Token.spaced (.ident "a" :: chains n)) = .ok (chained n (.name "a")) := by
  refine (parse_of_renders (Lexer.renders_spaced fun u hu => ?_) rfl fun cs last hcs hlast => ?_).1
  · rcases mem_cons.1 hu with rfl | hu
    · exact legible_a
    · exact legible_of_mem_chains hu
  · obtain ⟨x, us, rfl, hx, hus⟩ := map_eq_cons_iff.1 hcs
    have hstops : Stops extendsSeveral [last] := stops_cons hlast rfl
    have hsum := Level.returns_chained hus (Level.returns_atom_name hx)
      (Level.head_ne hx (by simp) _) (le_refl n) hstops.several.full.comparison
    have hnegation := Level.reaches_negation (Level.head_ne hx (by simp) _)
      (Level.reaches_comparison hsum hstops.several.full)
    rw [expression, ← hn]
    exact (Level.reaches_conditional hnegation hstops.several).bind
      (Level.reaches_isNext_else (hstops.ne rfl) Level.reaches_pure)

end Parser

/-- The greatest height of a parsed expression, and of an expression in a parsed suite. -/
theorem greatest_height (n : Nat) :
    (IsGreatest {h | ∃ text e, parseExpression text = .ok e ∧ e.height = h} n ↔ n = 15150) ∧
    (IsGreatest {h | ∃ text body, parseStatements text = .ok body ∧
      ∃ s ∈ body, ∃ e ∈ s.action.expressions, e.height = h} n ↔ n = 15150) := by
  have hbound : Parser.tallest maxNesting + 1 = 15150 := by decide +kernel
  obtain ⟨m, hm⟩ : ∃ m, m + 1 = maxNesting := ⟨99, rfl⟩
  obtain ⟨hexpression, line, hstatements⟩ := Parser.parse_tower hm
  have hheight : (Expr.tuple [Parser.towerTree m]).height = 15150 := by
    rw [Expr.height, heightOfAll, heightOfAll, Nat.max_zero, Parser.height_towerTree, hm, hbound]
  have hiff : ∀ {H : Set Nat}, IsGreatest H 15150 → (IsGreatest H n ↔ n = 15150) :=
    fun h => ⟨fun hn => hn.unique h, fun hn => hn ▸ h⟩
  refine ⟨hiff ⟨⟨_, _, hexpression, hheight⟩, ?_⟩, hiff ⟨⟨_, _, hstatements, _,
    mem_singleton_self _, _, mem_singleton_self _, hheight⟩, ?_⟩⟩
  · rintro _ ⟨text, e, he, rfl⟩
    rw [← hbound]
    obtain ⟨ts, ⟨-, hlow⟩, -⟩ := (outcome_of_parseExpression text).1 e he
    exact hlow
  · rintro _ ⟨text, body, hbody, s, hs, e, he, rfl⟩
    rw [← hbound]
    obtain ⟨ts, ⟨-, hlow⟩, -⟩ := (outcome_of_parseStatements text).1 body hbody
    exact heightOfAll_le_iff.1 (hlow s hs) e he

def longChains : String := Token.spaced (.ident "a" :: Parser.chains 99)

/-- Its tree is higher than the room is deep. -/
theorem longChains_higher :
    parseExpression longChains = .ok (Parser.chained 99 (.name "a")) ∧
      (Parser.chained 99 (.name "a")).height = 298 ∧ maxNesting < 298 :=
  ⟨Parser.parse_chains rfl, Parser.height_chained 99 (.name "a"), by decide⟩

end Bytewright
