import Bytewright.Proofs.Source.Render
import Bytewright.Source.Compile

/-!
# Constants that are written

The text of a constant is read back within a room that is two units more than its tuples are deep,
and the unit of the expression loads the constant and returns it.
-/

namespace Bytewright

open List

namespace Const

/-- The constant has a text that is read back, and its tuples are at most `depth` deep.  The least
integer is missing, because the text of its magnitude is no integer. -/
def Written : Nat → Const → Prop
  | _, none | _, bool _ => True
  | _, int n => n ≠ Int64.minValue
  | _, str s => ∀ c ∈ s.toList, Text.IsLegible c
  | depth + 1, tuple items => ∀ c ∈ items, Written depth c
  | _, _ => False

instance Written.decidable : ∀ depth c, Decidable (Written depth c)
  | 0, none | 0, bool _ | _ + 1, none | _ + 1, bool _ => .isTrue trivial
  | 0, int n | _ + 1, int n => inferInstanceAs (Decidable (n ≠ Int64.minValue))
  | 0, str s | _ + 1, str s => List.decidableBAll Text.IsLegible s.toList
  | depth + 1, tuple items =>
    have := Written.decidable depth
    List.decidableBAll (Written depth) items
  | 0, tuple _ | 0, float _ | 0, code _ | _ + 1, float _ | _ + 1, code _ => .isFalse id

end Const

variable {depth : Nat}

namespace Parser

theorem Stops.atom {rest : List Located} (h : Stops extendsFull rest) : Stops extendsAtom rest :=
  h.full.comparison.sum.product.primary

namespace Level

open Lexer

/-! ### Readings -/

def Separated (ds : List Char) : Prop := ∀ d ∈ ds.head?, d = ',' ∨ d = ')'

theorem separated_cons {d : Char} (h : d = ',' ∨ d = ')') (ds : List Char) :
    Separated (d :: ds) := by
  rintro _ ⟨⟩
  exact h

theorem Separated.ends {ds : List Char} (h : Separated ds) (t : Token) : t.Ends ds := by
  intro d hd
  rcases h d hd with rfl | rfl
  all_goals
    cases t with
    | symbol s => cases s <;> rfl
    | _ => rfl

/-- The text of a constant is the text of tokens, which are parsed to an expression that denotes
the constant. -/
structure Reads (room : Nat) (c : Const) (e : Expr) (ts : List Token) : Prop where
  denotes : e.constant? = some c
  starts : ∃ t us, ts = t :: us ∧ startsExpression t = true
  renders {us : List Token} {ds : List Char} : Separated ds → Renders us ds →
    Renders (ts ++ us) (c.text.toList ++ ds)
  returns {cs rest : List Located} : cs.map Located.token = ts → Stops extendsFull rest →
    Returns (within room).full (cs ++ rest) e rest

/-- The same for further items of a tuple, with the commas before them. -/
structure ReadsMore (room : Nat) (items : List Const) (es : List Expr) (ts : List Token)
    (text : List Char) : Prop where
  denotes : constants? es = some items
  stops {cs rest : List Located} : cs.map Located.token = ts → Stops extendsFull rest →
    Stops extendsFull (cs ++ rest)
  separated {ds : List Char} : Separated ds → Separated (text ++ ds)
  renders {us : List Token} {ds : List Char} : Separated ds → Renders us ds →
    Renders (ts ++ us) (text ++ ds)
  returns {cs rest : List Located} {n : Nat} : cs.map Located.token = ts →
    Stops extendsSeveral rest → cs.length ≤ n →
    Returns (moreItems (within room).full n) (cs ++ rest) es rest

variable {lower : Level} {cs rest : List Located} {e : Expr} {es : List Expr} {c : Const}
  {items : List Const} {t : Token} {ts us : List Token} {text : List Char} {room : Nat} {n : Int64}

theorem returns_conditional_of_unary (hnot : ∀ t ∈ cs.head?, t.token ≠ .keyword .not)
    (h : Returns (unary lower) cs e rest) (hrest : Stops extendsFull rest) :
    Returns (conditional lower) cs e rest :=
  reaches_conditional (reaches_negation hnot (reaches_comparison (reaches_sum
    (reaches_product h hrest.full.comparison.sum) hrest.full.comparison) hrest.full)) hrest

theorem returns_unary_of_atom (hminus : ∀ t ∈ cs.head?, t.token ≠ .symbol .minus)
    (h : Returns (atom lower) cs e rest) (hrest : Stops extendsFull rest) :
    Returns (unary lower) cs e rest :=
  reaches_unary hminus (h.bind (reaches_suffixes_stop hrest.full.comparison.sum.product))

/-! ### Literals -/

def IsLiteral (t : Token) (c : Const) : Prop :=
  ∀ {lower u rest}, u.token = t → Stops extendsAtom rest →
    Returns (atom lower) (u :: rest) (.literal c) rest

theorem isLiteral_str (s : String) : IsLiteral (.str s) (.str s) := by
  intro lower u rest hu hrest
  have hnone : ([] : List Located).map Located.token = ([] : List String).map Token.str := rfl
  refine reaches_peek hu (reaches_advance (Reaches.bind (reaches_rounds ?_) reaches_pure))
  exact reaches_moreStrings [] s hnone hrest (Nat.zero_le _)

theorem isLiteral_of_atom_eq
    (h : ∀ lower place rest last,
      atom lower ⟨⟨t, place⟩ :: rest, last⟩ = .ok (.literal c, ⟨rest, place⟩)) : IsLiteral t c := by
  rintro lower ⟨t, place⟩ rest rfl _
  exact ⟨0, fun _ last => .inl ⟨place, h lower place rest last⟩⟩

theorem isLiteral_integer (n : Int64) : IsLiteral (.integer n) (.int n) :=
  isLiteral_of_atom_eq fun _ _ _ _ => rfl

theorem isLiteral_none : IsLiteral (.keyword .none) .none :=
  isLiteral_of_atom_eq fun _ _ _ _ => rfl

theorem isLiteral_bool (b : Bool) :
    IsLiteral (.keyword (if b = true then .true else .false)) (.bool b) := by
  cases b <;> exact isLiteral_of_atom_eq fun _ _ _ _ => rfl

theorem reads_literal (h : IsLiteral t c) (ht : t.Legible) (htext : c.text = t.text)
    (hstarts : startsExpression t = true) (hminus : t ≠ .symbol .minus)
    (hnot : t ≠ .keyword .not) (room : Nat) : Reads (room + 1) c (.literal c) [t] where
  denotes := rfl
  starts := ⟨t, [], rfl, hstarts⟩
  renders hds hus := by
    rw [htext]
    exact .token ht (hds.ends t) hus
  returns {cs rest} hcs hrest := by
    obtain ⟨u, rfl, hu⟩ := map_eq_singleton_iff.1 hcs
    refine returns_conditional_of_unary (head_ne hu hnot rest) ?_ hrest
    exact returns_unary_of_atom (head_ne hu hminus rest) (h hu hrest.atom) hrest

theorem toInt_neg_of_ne_minValue (hn : n ≠ Int64.minValue) : (-n).toInt = -n.toInt := by
  have hmin : n.toInt ≠ -9223372036854775808 := fun h => hn (Int64.toInt_inj.1 h)
  have hlow := n.le_toInt
  have hhigh := n.toInt_lt
  rw [Int64.toInt_neg]
  exact Int.bmod_eq_of_le (by omega) (by omega)

theorem reads_negative (hn : n.toInt < 0) (hmin : n ≠ Int64.minValue) (room : Nat) :
    Reads (room + 2) (.int n) (.literal (.int n)) [.symbol .minus, .integer (-n)] := by
  have hneg := toInt_neg_of_ne_minValue hmin
  have hlegible : (Token.integer (-n)).Legible := by
    show 0 ≤ (-n).toInt
    omega
  have htext : (Const.int n).text.toList = '-' :: (Token.integer (-n)).text.toList := by
    rw [Const.text, Token.text, Decimal.integer, Decimal.integer, if_pos hn,
      if_neg (not_lt.2 hlegible), hneg, Int.natAbs_neg]
    simp
  refine ⟨rfl, ⟨_, _, rfl, rfl⟩, fun hds hus => ?_, fun {cs rest} hcs hrest => ?_⟩
  · rw [htext]
    exact .symbol rfl (fun _ => rfl) (.token hlegible (hds.ends _) hus)
  · obtain ⟨m, us, rfl, hm, hus⟩ := map_eq_cons_iff.1 hcs
    obtain ⟨u, rfl, hu⟩ := map_eq_singleton_iff.1 hus
    have hoperand : Returns (within (room + 1)).minusOperand (u :: rest)
        (.literal (.int (-n))) rest :=
      returns_unary_of_atom (head_ne hu (by simp) rest)
        (isLiteral_integer (-n) hu hrest.atom) hrest
    have hnegated : negated (.literal (.int (-n))) = .literal (.int n) := by
      rw [negated, Int64.neg_neg]
    refine returns_conditional_of_unary (head_ne hm (by simp) _) (reaches_eat hm ?_) hrest
    rw [← hnegated]
    exact hoperand.bind reaches_pure

theorem exists_reads_scalar (h : c.Written 0) (room : Nat) : ∃ e ts, Reads (room + 2) c e ts := by
  cases c with
  | none => exact ⟨_, _, reads_literal isLiteral_none trivial rfl rfl (by simp) (by simp) _⟩
  | bool b =>
    cases b <;>
      exact ⟨_, _, reads_literal (isLiteral_bool _) trivial rfl rfl (by simp) (by simp) _⟩
  | int n =>
    rcases lt_or_ge n.toInt 0 with hn | hn
    · exact ⟨_, _, reads_negative hn h room⟩
    · exact ⟨_, _, reads_literal (isLiteral_integer n) hn rfl rfl (by simp) (by simp) _⟩
  | str s => exact ⟨_, _, reads_literal (isLiteral_str s) h rfl rfl (by simp) (by simp) _⟩
  | float _ | tuple _ | code _ => exact h.elim

/-! ### Tuples -/

theorem readsMore_nil (room : Nat) : ReadsMore room [] [] [] [] where
  denotes := rfl
  stops hcs hrest := by
    obtain rfl := map_eq_nil_iff.1 hcs
    exact hrest
  separated hds := hds
  renders _ hus := hus
  returns hcs hrest _ := by
    obtain rfl := map_eq_nil_iff.1 hcs
    exact reaches_moreItems_stop (hrest.ne rfl)

theorem readsMore_comma (room : Nat) : ReadsMore room [] [] [.symbol .comma] [','] where
  denotes := rfl
  stops hcs _ := by
    obtain ⟨k, rfl, hk⟩ := map_eq_singleton_iff.1 hcs
    exact stops_cons hk rfl
  separated _ := separated_cons (.inl rfl) _
  renders _ hus := .symbol rfl (fun _ => rfl) hus
  returns {cs rest n} hcs hrest hn := by
    obtain ⟨k, rfl, hk⟩ := map_eq_singleton_iff.1 hcs
    obtain ⟨n, rfl⟩ := Nat.exists_eq_add_of_lt hn
    exact reaches_moreItems_nil hk (hrest.mono fun t ht => by simp_all [extendsSeveral])

theorem Reads.cons (h : Reads room c e ts) (hmore : ReadsMore room items es us text) :
    ReadsMore room (c :: items) (e :: es) (.symbol .comma :: (ts ++ us))
      (',' :: ' ' :: (c.text.toList ++ text)) where
  denotes := by simp [constants?, h.denotes, hmore.denotes]
  stops hcs _ := by
    obtain ⟨k, ks, rfl, hk, -⟩ := map_eq_cons_iff.1 hcs
    exact stops_cons hk rfl
  separated _ := separated_cons (.inl rfl) _
  renders hds hus := by
    have hitem := h.renders (hmore.separated hds) (hmore.renders hds hus)
    rw [← append_assoc, ← append_assoc] at hitem
    exact .symbol rfl (fun _ => rfl) (.blank hitem)
  returns {cs rest n} hcs hrest hn := by
    obtain ⟨k, ks, rfl, hk, hks⟩ := map_eq_cons_iff.1 hcs
    obtain ⟨ks, ls, rfl, hks, hls⟩ := map_eq_append_iff.1 hks
    obtain ⟨n, rfl⟩ := Nat.exists_eq_add_of_lt hn
    have hitem := h.returns hks (hmore.stops hls hrest.several)
    have hmore := hmore.returns (n := (ks ++ ls).length + n) hls hrest (by simp; omega)
    obtain ⟨t, vs, rfl, ht⟩ := h.starts
    obtain ⟨u, ks, rfl, hu, -⟩ := map_eq_cons_iff.1 hks
    simp only [cons_append, append_assoc] at hitem ⊢
    exact reaches_moreItems_cons hk (by rw [hu, ht]) hitem hmore

theorem Reads.parens (h : Reads room c e ts)
    (hmore : ReadsMore room items es (.symbol .comma :: us) text)
    (htext : (Const.tuple (c :: items)).text.toList = '(' :: (c.text.toList ++ (text ++ [')']))) :
    Reads (room + 1) (.tuple (c :: items)) (.tuple (e :: es))
      (.symbol .lParen :: (ts ++ (.symbol .comma :: us ++ [.symbol .rParen]))) where
  denotes := by simp [Expr.constant?, constants?, h.denotes, hmore.denotes]
  starts := ⟨_, _, rfl, rfl⟩
  renders {vs ds} hds hvs := by
    have hclose : Renders (.symbol .rParen :: vs) (')' :: ds) := .symbol rfl (fun _ => rfl) hvs
    have hinner := h.renders (hmore.separated (separated_cons (.inr rfl) ds))
      (hmore.renders (separated_cons (.inr rfl) ds) hclose)
    have hopen : Renders (.symbol .lParen :: _) ('(' :: _) := .symbol rfl (fun _ => rfl) hinner
    simpa [htext] using hopen
  returns {cs rest} hcs hrest := by
    obtain ⟨l, cs, rfl, hl, hcs⟩ := map_eq_cons_iff.1 hcs
    obtain ⟨ks, cs, rfl, hks, hcs⟩ := map_eq_append_iff.1 hcs
    obtain ⟨ms, cs, rfl, hms, hcs⟩ := map_eq_append_iff.1 hcs
    obtain ⟨r, rfl, hr⟩ := map_eq_singleton_iff.1 hcs
    have hstops : Stops extendsSeveral (r :: rest) := stops_cons hr rfl
    have hitem := h.returns hks (hmore.stops hms hstops.several)
    have hitems := hmore.returns (n := (ms ++ r :: rest).length) hms hstops (by simp)
    obtain ⟨t, vs, rfl, ht⟩ := h.starts
    obtain ⟨u, ks, rfl, hu, -⟩ := map_eq_cons_iff.1 hks
    obtain ⟨k, ms, rfl, hk, -⟩ := map_eq_cons_iff.1 hms
    have hlist : Returns (expressionList (within room).full)
        (u :: (ks ++ (k :: (ms ++ r :: rest)))) (.tuple (e :: es)) (r :: rest) :=
      reaches_tuple hitem hk hitems
    have hatom : Returns (atom (within room)) (l :: u :: (ks ++ (k :: (ms ++ r :: rest))))
        (.tuple (e :: es)) rest :=
      reaches_parens hl (head_ne hu (ne_of_startsExpression ht rfl) _) hlist hr
    simp only [cons_append, append_assoc]
    exact returns_conditional_of_unary (head_ne hl (by simp) _)
      (returns_unary_of_atom (head_ne hl (by simp) _) hatom hrest) hrest

theorem reads_unit (room : Nat) :
    Reads (room + 1) (.tuple []) (.tuple []) [.symbol .lParen, .symbol .rParen] where
  denotes := rfl
  starts := ⟨_, _, rfl, rfl⟩
  renders _ hus := .symbol rfl (fun _ => rfl) (.symbol rfl (fun _ => rfl) hus)
  returns {cs rest} hcs hrest := by
    obtain ⟨l, cs, rfl, hl, hcs⟩ := map_eq_cons_iff.1 hcs
    obtain ⟨r, rfl, hr⟩ := map_eq_singleton_iff.1 hcs
    have hatom : Returns (atom (within room)) (l :: r :: rest) (.tuple []) rest :=
      reaches_peek hl (reaches_advance (reaches_eat hr reaches_pure))
    exact returns_conditional_of_unary (head_ne hl (by simp) _)
      (returns_unary_of_atom (head_ne hl (by simp) _) hatom hrest) hrest

/-- The texts of items, each with a comma before it. -/
def moreTexts (items : List Const) : List Char :=
  items.flatMap fun c => ',' :: ' ' :: c.text.toList

theorem toList_text_tuple (c d : Const) (items : List Const) :
    (Const.tuple (c :: d :: items)).text.toList =
      '(' :: (c.text.toList ++ (moreTexts (d :: items) ++ [')'])) := by
  have hjoin (c : Const) (items : List Const) :
      (", ".intercalate (constTexts (c :: items))).toList = c.text.toList ++ moreTexts items := by
    induction items generalizing c with
    | nil => simp [constTexts, moreTexts]
    | cons d items ih =>
      have := ih d
      simp_all [constTexts, moreTexts, String.toList_intercalate]
  show ("(" ++ ", ".intercalate (constTexts (c :: d :: items)) ++ ")").toList = _
  simp [hjoin]

theorem exists_readsMore (h : ∀ c ∈ items, ∃ e ts, Reads room c e ts) :
    ∃ es us, ReadsMore room items es us (moreTexts items) := by
  induction items with
  | nil => exact ⟨[], [], readsMore_nil room⟩
  | cons c items ih =>
    obtain ⟨⟨e, ts, hc⟩, hitems⟩ := forall_mem_cons.1 h
    obtain ⟨es, us, hmore⟩ := ih hitems
    exact ⟨e :: es, _, hc.cons hmore⟩

theorem exists_reads (h : c.Written depth) : ∃ e ts, Reads (depth + 2) c e ts := by
  induction depth generalizing c with
  | zero => exact exists_reads_scalar h 0
  | succ depth ih =>
    cases c with
    | tuple items =>
      have hitems : ∀ c ∈ items, ∃ e ts, Reads (depth + 2) c e ts := fun c hc => ih (h c hc)
      match items with
      | [] => exact ⟨_, _, reads_unit _⟩
      | [c] =>
        obtain ⟨e, ts, hc⟩ := hitems c mem_cons_self
        exact ⟨_, _, hc.parens (readsMore_comma _) (by simp [Const.text, constTexts, tupleText])⟩
      | c :: d :: items =>
        obtain ⟨⟨e, ts, hc⟩, hitems⟩ := forall_mem_cons.1 hitems
        obtain ⟨⟨e', ts', hd⟩, hitems⟩ := forall_mem_cons.1 hitems
        obtain ⟨es, us, hmore⟩ := exists_readsMore hitems
        exact ⟨_, _, hc.parens (hd.cons hmore) (toList_text_tuple c d items)⟩
    | _ => exact exists_reads_scalar (by exact h) (depth + 1)

theorem exists_parseExpression (h : c.Written depth) (hdepth : depth + 2 = maxNesting) :
    ∃ e, parseExpression c.text = .ok e ∧ e.constant? = some c := by
  obtain ⟨e, ts, hreads⟩ := exists_reads h
  obtain ⟨t, us, rfl, ht⟩ := hreads.starts
  have htext : Renders (t :: us) c.text.toList := by
    simpa using hreads.renders (by simp [Separated]) .nil
  refine ⟨e, (parse_of_renders htext ht fun cs last hcs hlast => ?_).1, hreads.denotes⟩
  have hstops : Stops extendsSeveral [last] := stops_cons hlast rfl
  rw [expression, ← hdepth]
  exact (hreads.returns hcs hstops.several).bind (reaches_isNext_else (hstops.ne rfl) reaches_pure)

end Level

end Parser

/-! ### Units -/

theorem Expr.emit_of_constant? {e : Expr} {c : Const} (h : e.constant? = some c) (ls : Labels) :
    e.emit ls = ([.const c], ls) := by
  cases e with
  | literal k =>
    cases h
    rfl
  | tuple items =>
    obtain ⟨cs, hcs, rfl⟩ := Option.map_eq_some_iff.1 h
    rw [Expr.emit, hcs]
  | _ => cases h

theorem Const.Written.sameAs_self {c : Const} (h : c.Written depth) : c.sameAs c = true := by
  induction depth generalizing c with
  | zero => cases c <;> simp_all [Const.sameAs, Const.Written]
  | succ depth ih =>
    cases c with
    | tuple items =>
      have hitems : ∀ c ∈ items, c.sameAs c = true := fun c hc => ih (h c hc)
      clear h
      rw [Const.sameAs]
      induction items with
      | nil => rfl
      | cons c items ih => simp_all [sameList]
    | _ => simp_all [Const.sameAs, Const.Written]

theorem exists_assemble_const (c : Const) (fileName : String) :
    ∃ unit, assemble fileName [.line 1, .const c, .bare .returnValue]
        { name := "<module>", firstLine := 1 } = .ok unit ∧
      unit.code = [⟨.loadConst, 0⟩, ⟨.bare .returnValue, 0⟩] ∧ unit.consts = [c] := by
  have hcheck : Depth.check [⟨.loadConst, 0⟩, ⟨.bare .returnValue, 0⟩] = .ok 1 := by cbv
  have hlabels : Assemble.checkLabels [.line 1, .const c, .bare .returnValue] = .ok () := rfl
  have hparameters : Assemble.checkParameters [] = .ok () := rfl
  have hencode : Assemble.encode [.line 1, .const c, .bare .returnValue] 0 {}
      [.line 1, .const c, .bare .returnValue] =
        .ok ([⟨.loadConst, 0⟩, ⟨.bare .returnValue, 0⟩], { consts := [c] }) := rfl
  simp only [assemble, bind, Except.bind, hlabels, hparameters, hencode, Assemble.stackSize, hcheck,
    pure, Except.pure, Except.ok.injEq, exists_eq_left', and_self]

/-- The text of a constant, compiled as an expression, loads this constant and returns it. -/
theorem constant_text_reads_back (c : Const) (h : c.Written 98) (fileName : String) :
    ∃ unit, sourceCompiler (.source c.text) fileName .expression = .ok unit ∧
      unit.code = [⟨.loadConst, 0⟩, ⟨.bare .returnValue, 0⟩] ∧
      unit.consts = [c] ∧ c.sameAs c = true := by
  obtain ⟨e, hparse, hconstant⟩ := Parser.Level.exists_parseExpression h rfl
  obtain ⟨unit, hunit, hcode, hconsts⟩ := exists_assemble_const c fileName
  refine ⟨unit, ?_, hcode, hconsts, h.sameAs_self⟩
  simp only [sourceCompiler, hparse, bind, Except.bind, compileExpression,
    Expr.emit_of_constant? hconstant, finishFragment, cons_append, nil_append, hunit]

/-- Tuples 98 deep with a negative integer inside, next to an empty one and a text. -/
def nestedConst : Const :=
  .tuple [.tuple [], .str "a \"b\"\\\n\x00", .none, .bool true, .int 9223372036854775807,
    Nat.iterate (fun c => .tuple [c]) 97 (.int (-9223372036854775807))]

theorem nestedConst_reads_back :
    nestedConst.Written 98 ∧ ¬nestedConst.Written 97 ∧
      ∃ unit, sourceCompiler (.source nestedConst.text) "nested" .expression = .ok unit ∧
        unit.code = [⟨.loadConst, 0⟩, ⟨.bare .returnValue, 0⟩] ∧
        unit.consts = [nestedConst] ∧ nestedConst.sameAs nestedConst = true := by
  have hwritten : nestedConst.Written 98 := by decide +kernel
  exact ⟨hwritten, by decide +kernel, constant_text_reads_back nestedConst hwritten "nested"⟩

end Bytewright
