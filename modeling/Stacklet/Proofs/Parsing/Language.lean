import Stacklet.Pipeline
import Stacklet.Proofs.Parsing.Wrapped
/-!
# The language of the parser

* `Bare`: tokens of which no name in parentheses is called or indexed. It is passed on to the parts
  that a derivation is made of, since these stand where an operand may start.
* `Derives.generated`, …, `DerivesItems.generated`: derivations of bare tokens follow the rules.
* **`scan_mem_generated_iff`**: the rules generate what is parsed without errors and is bare.
* `exists_parse_not_generated`: without the second condition the parser takes more.
-/

namespace Stacklet

open scoped Computability

variable {ts : List Token} {a : Tree}

open Phrase (generated)

/-! ## Bare tokens -/

theorem Fresh.append {ks js : List Token.Kind} (hks : Fresh ks) (hjs : Fresh js) :
    Fresh (ks ++ js) := by
  intro k hk
  rw [List.getLast?_append, Option.mem_def, Option.or_eq_some_iff] at hk
  rcases hk with hk | ⟨-, hk⟩
  · exact hjs k hk
  · exact hks k hk

theorem fresh_snoc {k : Token.Kind} (hk : k.endsOperand = false) (ks : List Token.Kind) :
    Fresh (ks ++ [k]) := by
  intro j hj
  rw [List.getLast?_concat] at hj
  cases hj
  exact hk

namespace CallsWrapped

variable {ks js : List Token.Kind}

theorem append_right (h : CallsWrapped ks) (js : List Token.Kind) : CallsWrapped (ks ++ js) := by
  obtain ⟨us, vs, m, s, rfl, hfresh, hs⟩ := h
  exact ⟨us, vs ++ js, m, s, by simp, hfresh, hs⟩

theorem append_left (h : CallsWrapped ks) (hjs : Fresh js) : CallsWrapped (js ++ ks) := by
  obtain ⟨us, vs, m, s, rfl, hfresh, hs⟩ := h
  exact ⟨js ++ us, vs, m, s, by simp, hjs.append hfresh, hs⟩

end CallsWrapped

/-- No name in parentheses is called or indexed. -/
def Bare (ts : List Token) : Prop := ¬CallsWrapped (ts.map Token.kind)

/-- Tokens behind which an operand may start. -/
def EndsApart (ts : List Token) : Prop := ∃ us c, ts = us ++ [c] ∧ c.kind.endsOperand = false

section Bare

variable {x y : List Token} {t c : Token}

theorem Bare.left (h : Bare (x ++ y)) : Bare x :=
  fun hx => h (by simpa using hx.append_right (y.map Token.kind))

theorem Bare.right (h : Bare (x ++ y)) (hx : EndsApart x) : Bare y := by
  obtain ⟨vs, c, rfl, hc⟩ := hx
  intro hy
  refine h ?_
  rw [List.map_append]
  refine hy.append_left ?_
  rw [List.map_append]
  exact fresh_snoc hc _

/-- What starts with a token other than an opening parenthesis may stand behind an operand. -/
theorem Bare.right_of_head (h : Bare (x ++ t :: y)) (ht : t.kind ≠ .symbol .openParen) :
    Bare (t :: y) := by
  rintro ⟨js, ks, m, s, heq, hfresh, hs⟩
  refine h ⟨x.map Token.kind ++ js, ks, m, s, by simp [heq], ?_, hs⟩
  cases js with
  | nil => exact absurd (List.cons.inj heq).1 ht
  | cons j js =>
    intro k hk
    rw [List.getLast?_append_cons] at hk
    exact hfresh k hk

theorem Bare.behind (h : Bare (x ++ t :: y)) (ht : t.kind.endsOperand = false) : Bare y := by
  rw [List.append_cons] at h
  exact h.right ⟨x, t, rfl, ht⟩

theorem Bare.tail (h : Bare (t :: y)) (ht : t.kind.endsOperand = false) : Bare y :=
  Bare.behind (x := []) h ht

theorem EndsApart.append (h : EndsApart y) (x : List Token) : EndsApart (x ++ y) := by
  obtain ⟨vs, c, rfl, hc⟩ := h
  exact ⟨x ++ vs, c, (List.append_assoc ..).symm, hc⟩

theorem EndsApart.cons (h : EndsApart y) (t : Token) : EndsApart (t :: y) := h.append [t]

theorem endsApart_snoc (hc : c.kind.endsOperand = false) (x : List Token) : EndsApart (x ++ [c]) :=
  ⟨x, c, rfl, hc⟩

end Bare

/-! ## Names in parentheses -/

mutual

theorem Derives.wrapped : ∀ {l : Precedence} {ts : List Token} {a : Tree}, Derives l ts a →
    a.kind = .identifier →
    ∃ m, ts.map Token.kind = wrapped m
  | _, _, _, .tighter _ _ _ _ h, ha => h.wrapped ha
  | _, _, _, .comma .., ha | _, _, _, .assign .., ha | _, _, _, .binary .., ha
  | _, _, _, .unary .., ha | _, _, _, .number .., ha
  | _, _, _, .string .., ha => by cases ha
  | _, _, _, .chain _ _ h, ha => h.wrapped ha
  | _, _, _, .name t hk, _ => ⟨0, by simp [Stacklet.wrapped, hk]⟩
  | _, _, _, .parens ts o c a ho h hc, ha => by
    obtain ⟨m, hm⟩ := h.wrapped ha
    exact ⟨m +
      1, by simp [hm, ho, hc, Stacklet.wrapped, List.replicate_succ, ← List.replicate_succ']⟩

theorem DerivesChain.wrapped {ts : List Token} {a : Tree} :
    DerivesChain ts a → a.kind = .identifier →
    ∃ m, ts.map Token.kind = wrapped m
  | .base _ _ h _, ha => h.wrapped ha
  | .callNone .., ha | .call .., ha | .index .., ha => by cases ha

end

/-! ## Putting phrases together -/

namespace Phrase

variable {l m : Language Token.Kind} {x y : List Token} {t c o : Token}

theorem mem_generated {p : Phrase} (h : x.map Token.kind ∈ rule generated p) :
    x.map Token.kind ∈ generated p :=
  (congrFun rule_generated p) ▸ h

theorem mem_mul (hx : x.map Token.kind ∈ l) (hy : y.map Token.kind ∈ m) :
    (x ++ y).map Token.kind ∈ l * m :=
  map_mem_mul.mpr ⟨x, y, rfl, hx, hy⟩

theorem mem_single {k : Token.Kind} (ht : t.kind = k) : [t].map Token.kind ∈ single k :=
  map_mem_single.mpr ⟨t, rfl, ht⟩

theorem mem_type (ht : t.kind.isType) : [t].map Token.kind ∈ type := map_mem_type.mpr ⟨t, rfl, ht⟩

theorem mem_inParens (ho : o.kind = .symbol .openParen) (hx : x.map Token.kind ∈ l)
    (hc : c.kind = .symbol .closeParen) :
    (o :: (x ++ [c])).map Token.kind ∈ inParens l := map_mem_inParens.mpr ⟨o, x, c, rfl, ho, hx, hc⟩

theorem mem_inBrackets (ho : o.kind = .symbol .openBracket) (hx : x.map Token.kind ∈ l)
    (hc : c.kind = .symbol .closeBracket) :
    (o :: (x ++ [c])).map Token.kind ∈ inBrackets l :=
  map_mem_inBrackets.mpr ⟨o, x, c, rfl, ho, hx, hc⟩

theorem mem_optional (hx : x.map Token.kind ∈ l) : x.map Token.kind ∈ l * (1 + m) := by
  have h : ([] : List Token).map Token.kind ∈ 1 + m := .inl rfl
  simpa using mem_mul hx h

theorem mem_mul_kstar_snoc (hx : x.map Token.kind ∈ l * m∗) (hy : y.map Token.kind ∈ m) :
    (x ++ y).map Token.kind ∈ l * m∗ := by
  have hle : l * m∗ * m ≤ l * m∗ := by
    rw [mul_assoc]
    gcongr
    exact kstar_mul_le_kstar
  exact hle (mem_mul hx hy)

theorem mem_mul_kstar (hx : x.map Token.kind ∈ l) : x.map Token.kind ∈ l * m∗ := by
  simpa using mem_mul (y := []) hx (Language.nil_mem_kstar m)

theorem mem_commaList_cons (hx : x.map Token.kind ∈ l) (hc : c.kind = .symbol .comma)
    (hy : y.map Token.kind ∈ commaList l) :
    (x ++ c :: y).map Token.kind ∈ commaList l := by
  have hle : l * (sign .comma * (l * (sign .comma * l)∗)) ≤ l * (sign .comma * l)∗ := by
    rw [← mul_assoc (sign .comma)]
    gcongr
    exact mul_kstar_le_kstar
  exact hle (mem_mul hx (mem_mul (mem_single hc) hy))

end Phrase

/-- The phrase of a level. -/
def Precedence.phrase : Precedence → Phrase
  | expression => .expression
  | assignment => .assignment
  | equality => .equality
  | relational => .relational
  | additive => .additive
  | term => .term
  | unary => .unary
  | suffixed => .suffixed
  | primary => .primary

open Phrase

theorem Precedence.mem_of_next {l : Precedence} (h : ts.map Token.kind ∈ generated l.next.phrase) :
    ts.map Token.kind ∈ generated l.phrase := by
  cases l with
  | expression => exact mem_generated (mem_optional h)
  | assignment => exact mem_generated (.inl h)
  | equality | relational | additive | term => exact mem_generated (mem_mul_kstar h)
  | unary | suffixed => exact mem_generated (.inr h)
  | primary => exact h

theorem Precedence.rule_phrase {l : Precedence} (hl : l.isBinary) :
    rule generated l.phrase = chain l.operators (generated l.next.phrase) := by
  cases l <;> first | rfl | cases hl

/-! ## Expressions -/

/-- The tokens of an expression follow the rules. -/
structure Follows (l : Precedence) (ts : List Token) (a : Tree) : Prop where
  mem : ts.map Token.kind ∈ generated l.phrase
  target : Parser.isTarget a.kind → ts.map Token.kind ∈ generated .target

/-- The tokens of a name with its suffixes follow the rules. If another suffix stands behind them,
then the name has no parentheses. -/
structure FollowsChain (ts : List Token) (a : Tree) : Prop where
  mem : ts.map Token.kind ∈ generated .suffixed
  target : Parser.isTarget a.kind → ts.map Token.kind ∈ generated .target
  named : ∀ {o : Token} {us : List Token}, o.kind = .symbol .openParen ∨
    o.kind = .symbol .openBracket →
    Bare (ts ++ o :: us) → ts.map Token.kind ∈ name * (call generated + index generated)∗

theorem FollowsChain.snoc {us : List Token} {o : Token} {b : Tree} (h : FollowsChain ts a)
    (ho : o.kind = .symbol .openParen ∨ o.kind = .symbol .openBracket)
    (hbare : Bare (ts ++ o :: us))
    (hus : (o :: us).map Token.kind ∈ call generated + index generated)
    (htarget : Parser.isTarget b.kind → (o :: us).map Token.kind ∈ index generated) :
    FollowsChain (ts ++ o :: us) b := by
  have hnamed := h.named ho hbare
  have hmem := mem_mul_kstar_snoc hnamed hus
  refine ⟨mem_generated (.inl hmem), fun hb => mem_generated (.inl ?_), fun _ _ => hmem⟩
  obtain ⟨xs, vs, rfl, hxs, hvs⟩ := map_mem_mul.mp hnamed
  rw [List.append_assoc]
  exact mem_mul hxs (.inr (mem_mul hvs (htarget hb)))

theorem endsOperand_openParen {o : Token} (h : o.kind = .symbol .openParen) :
    o.kind.endsOperand = false := by rw [h]; rfl

mutual

theorem Derives.follows {l : Precedence} {ts : List Token} {a : Tree} :
    Derives l ts a → Bare ts → Follows l ts a
  | .tighter l ts a _ h, hbare =>
    ⟨Precedence.mem_of_next (h.follows hbare).mem, (h.follows hbare).target⟩
  | .comma ts us c a b ha hc hb, hbare => by
    have hts := (ha.follows hbare.left).mem
    have hus := (hb.follows (hbare.behind (by rw [hc]; rfl))).mem
    exact ⟨mem_generated (mem_mul hts (.inr (mem_mul (mem_single hc) hus))), fun h => by cases h⟩
  | .assign ts us c a b ha htarget hc hb, hbare => by
    have hts := ha.follows hbare.left
    have hus := (hb.follows (hbare.behind (by rw [hc]; rfl))).mem
    refine ⟨mem_generated (.inr ?_), fun h => by cases h⟩
    rw [List.append_cons]
    exact mem_mul (mem_mul ⟨hts.mem, hts.target htarget⟩ (mem_single hc)) hus
  | .binary l ts us op s a b hl ha hk hs hb, hbare => by
    have hop : Parser.isOneOf l.operators op.kind :=
      (Precedence.isOneOf_operators hl op.kind).mpr ⟨s, hk, hs⟩
    have hends : op.kind.endsOperand = false := by
      rw [hk]
      cases s <;> first | rfl | cases hs
    have hts := (ha.follows hbare.left).mem
    have hus := (hb.follows (hbare.behind hends)).mem
    refine ⟨mem_generated ?_, fun h => by cases h⟩
    rw [← congrFun rule_generated l.phrase] at hts
    rw [Precedence.rule_phrase hl] at hts ⊢
    exact mem_mul_kstar_snoc hts (mem_mul (map_mem_anyOf.mpr ⟨op, rfl, hop⟩) hus)
  | .unary ts op a hop ha, hbare => by
    have hkind : Parser.isOneOf [.plus, .minus, .bang] op.kind ∧ op.kind.endsOperand = false := by
      rcases of_decide_eq_true hop with hk | hk | hk <;> rw [hk] <;> exact ⟨rfl, rfl⟩
    have hts := (ha.follows (hbare.tail hkind.2)).mem
    exact ⟨mem_generated (.inl (mem_mul (map_mem_anyOf.mpr ⟨op, rfl, hkind.1⟩) hts)),
      fun h => by cases h⟩
  | .chain ts a h, hbare => ⟨(h.follows hbare).mem, (h.follows hbare).target⟩
  | .number t hk, _ => ⟨mem_generated (.inl (.inl (.inl (mem_single hk)))), fun h => by cases h⟩
  | .string t hk, _ => ⟨mem_generated (.inl (.inl (.inr (mem_single hk)))), fun h => by cases h⟩
  | .name t hk, _ =>
    ⟨mem_generated (.inl (.inr (mem_single hk))),
      fun _ => mem_generated (.inl (mem_optional (mem_single hk)))⟩
  | .parens ts o c a ho h hc, hbare => by
    have hts := h.follows (hbare.tail (endsOperand_openParen ho)).left
    exact ⟨mem_generated (.inr (mem_inParens ho hts.mem hc)),
      fun ha => mem_generated (.inr (mem_inParens ho (hts.target ha) hc))⟩

theorem DerivesChain.follows {ts : List Token} {a : Tree} :
    DerivesChain ts a → Bare ts → FollowsChain ts a
  | .base ts a h ha, hbare => by
    refine ⟨Precedence.mem_of_next (l := .suffixed) (h.follows hbare).mem, (h.follows hbare).target,
      fun {o us} ho hmore => ?_⟩
    obtain ⟨m, hm⟩ := h.wrapped ha
    rw [hm]
    cases m with
    | zero => exact (mem_mul_kstar (x := [⟨.name, "", .start⟩]) (mem_single rfl) : _)
    | succ m =>
      -- more parentheses around the name are ruled out by the suffix
      obtain ⟨s, hs, hos⟩ : ∃ s, (s = .openParen ∨ s = .openBracket) ∧ o.kind = .symbol s := by
        rcases ho with ho | ho
        · exact ⟨_, .inl rfl, ho⟩
        · exact ⟨_, .inr rfl, ho⟩
      exact absurd ⟨[], us.map Token.kind, m, s, by simp [hm, hos], fun _ hk => (by cases hk), hs⟩
        hmore
  | .callNone ts o c f hf ho hc, hbare => by
    refine (hf.follows hbare.left).snoc (.inl ho) hbare (.inl ?_) fun h => by cases h
    exact mem_inParens (x := []) ho (.inl rfl) hc
  | .call ts us o c f args hf ho hargs hc, hbare => by
    have hus := hargs.mem_commaList (hbare.behind (endsOperand_openParen ho)).left
    refine (hf.follows hbare.left).snoc (.inl ho) hbare (.inl ?_) fun h => by cases h
    exact mem_inParens ho (.inr hus) hc
  | .index ts us o c a i ha ho hi hc, hbare => by
    have hus := (hi.follows (hbare.behind (by rw [ho]; rfl)).left).mem
    have hindex : (o :: (us ++ [c])).map Token.kind ∈ index generated := mem_inBrackets ho hus hc
    exact (ha.follows hbare.left).snoc (.inr ho) hbare (.inr hindex) fun _ => hindex

theorem DerivesList.mem_commaList {ts : List Token} {as : List Tree} : DerivesList ts as → Bare ts →
    ts.map Token.kind ∈ commaList (generated .assignment)
  | .one _ _ h, hbare => mem_mul_kstar (h.follows hbare).mem
  | .cons ts us c a as h hc has, hbare =>
    mem_commaList_cons (h.follows hbare.left).mem hc
      (has.mem_commaList (hbare.behind (by rw [hc]; rfl)))

end

/-! ## Statements -/

section Ends

variable {ts : List Token} {a : Tree} {as : List Tree}

theorem DerivesDeclaration.endsApart (h : DerivesDeclaration ts a) : EndsApart ts := by
  obtain ⟨ty, c, ts, ds, -, -, hc⟩ := h
  exact (endsApart_snoc (by rw [hc]; rfl) ts).cons ty

theorem DerivesBlock.endsApart (h : DerivesBlock ts a) : EndsApart ts := by
  obtain ⟨o, c, ts, as, -, -, hc⟩ := h
  exact (endsApart_snoc (by rw [hc]; rfl) ts).cons o

theorem DerivesBlock.bare {x y : List Token} (h : DerivesBlock ts a)
    (hbare : Bare (x ++ (ts ++ y))) : Bare (ts ++ y) := by
  obtain ⟨o, c, ts, as, ho, -, -⟩ := h
  exact Bare.right_of_head (t := o) hbare (by rw [ho]; decide)

theorem DerivesFirst.endsApart (h : DerivesFirst ts a) : EndsApart ts := by
  cases h with
  | omitted c hc => exact endsApart_snoc (by rw [hc]; rfl) []
  | declaration _ _ h => exact h.endsApart
  | expr t c ts a _ hc => exact (endsApart_snoc (by rw [hc]; rfl) ts).cons t

theorem DerivesBranches.endsApart : ∀ {us vs : List Token} {as : List Tree}, DerivesBranches vs as →
    EndsApart us → EndsApart (us ++ vs)
  | us, _, _, .nil, hus => by rwa [List.append_nil]
  | us, _, _, .last w _ _ _ h, _ => (h.endsApart.cons w).append us
  | us, _, _, .elseIf w v o c ts _ _ _ _ _ _ _ _ _ _ hbody h, _ =>
    (((((h.endsApart hbody.endsApart).cons c |>.append ts).cons o).cons v).cons w).append us

theorem DerivesStmt.endsApart (h : DerivesStmt ts a) : EndsApart ts := by
  cases h with
  | block _ _ h => exact h.endsApart
  | declaration _ _ h => exact h.endsApart
  | exprStmt t c ts a _ hc => exact (endsApart_snoc (by rw [hc]; rfl) ts).cons t
  | returnNothing w c _ hc | breakStmt w c _ hc | continueStmt w c _ hc =>
    exact endsApart_snoc (by rw [hc]; rfl) [w]
  | returnValue w c ts a _ _ hc => exact (endsApart_snoc (by rw [hc]; rfl) ts).cons w
  | conditional w o c ts us vs a body branches _ _ _ _ hbody hbranches =>
    exact ((((hbranches.endsApart hbody.endsApart).cons c).append ts).cons o).cons w
  | whileLoop w o c ts us a body _ _ _ _ hbody =>
    exact (((hbody.endsApart.cons c).append ts).cons o).cons w
  | doWhile w v o c z ts us body a _ _ _ _ _ _ hz =>
    exact ((((((endsApart_snoc (c := z) (by rw [hz]; rfl) []).cons c).append ts).cons o).cons
      v).append us).cons w
  | forLoop w o z c ts us vs ws first a step body _ _ _ _ _ _ _ hbody =>
    exact ((((((hbody.endsApart.cons c).append vs).cons z).append us).append ts).cons o).cons w

theorem DerivesFunction.endsApart (h : DerivesFunction ts a) : EndsApart ts := by
  obtain ⟨w, ty, x, o, ts, us, ps, body, -, -, -, -, -, hbody⟩ := h
  exact ((((hbody.endsApart.append ts).cons o).cons x).cons ty).cons w

end Ends

theorem Separated.mem_commaList {D : List Token → Tree → Prop} {p : Phrase} {as : List Tree}
    (h : Separated D ts as) (hD : ∀ {ts a}, D ts a → Bare ts → ts.map Token.kind ∈ generated p)
    (hbare : Bare ts) :
    ts.map Token.kind ∈ commaList (generated p) := by
  induction h with
  | one ts a h => exact mem_mul_kstar (hD h hbare)
  | cons ts us c a as h hc _ ih =>
    exact mem_commaList_cons (hD h hbare.left) hc (ih (hbare.behind (by rw [hc]; rfl)))

section Generated

variable {ts : List Token} {a : Tree}

theorem DerivesDeclarator.generated (h : DerivesDeclarator ts a) (hbare : Bare ts) :
    ts.map Token.kind ∈ generated .var := by
  refine mem_generated ?_
  cases h with
  | plain x hx => exact mem_mul (y := []) (mem_single hx) (.inl (.inl rfl))
  | initial x c ts a hx hc ha =>
    have hts := (ha.follows (Bare.behind (x := [x]) hbare (by rw [hc]; rfl))).mem
    exact mem_mul (mem_single hx) (.inl (.inr (mem_mul (mem_single hc) hts)))
  | array x o c ts a hx ho ha hc =>
    have hts := (ha.follows (Bare.behind (x := [x]) hbare (by rw [ho]; rfl)).left).mem
    exact mem_mul (mem_single hx) (.inr (mem_inBrackets ho hts hc))

theorem DerivesDeclaration.generated (h : DerivesDeclaration ts a) (hbare : Bare ts) :
    ts.map Token.kind ∈ generated .varDecls := by
  obtain ⟨ty, c, ts, ds, hty, hds, hc⟩ := h
  have hends : ty.kind.endsOperand = false := by
    match hk : ty.kind, hty with
    | .keyword _, _ => rfl
  have hts := hds.mem_commaList DerivesDeclarator.generated (hbare.tail hends).left
  exact mem_generated (mem_mul (mem_mul (mem_type hty) hts) (mem_single hc))

theorem DerivesFirst.generated (h : DerivesFirst ts a) (hbare : Bare ts) :
    ts.map Token.kind ∈ generated .varDecls + (1 + generated .expression) * sign .semicolon := by
  cases h with
  | omitted c hc => exact .inr (mem_mul (x := []) (.inl rfl) (mem_single hc))
  | declaration _ _ h => exact .inl (h.generated hbare)
  | expr t c ts a ha hc =>
    exact .inr (mem_mul (x := t :: ts) (.inr (ha.follows (Bare.left (y := [c]) hbare)).mem)
      (mem_single hc))

theorem DerivesOptional.generated {c : Token} (h : DerivesOptional c ts a) (hbare : Bare ts) :
    ts.map Token.kind ∈ 1 + generated .expression := by
  cases h with
  | omitted => exact .inl rfl
  | expr _ _ h => exact .inr (h.follows hbare).mem

end Generated

theorem endsOperand_keyword {w : Token} {k : Keyword} (h : w.kind = .keyword k) :
    w.kind.endsOperand = false := by rw [h]; rfl

/-- The statements other than expressions. -/
def Phrase.isStatement : Phrase → Bool
  | block | conditional | whileLoop | doWhile | forLoop | returnStmt | breakStmt | continueStmt
  | varDecls => true
  | _ => false

theorem Phrase.mem_statement {p : Phrase} (h : ts.map Token.kind ∈ generated p)
    (hp : p.isStatement) :
    ts.map Token.kind ∈ generated .statement := by
  refine mem_generated ?_
  simp only [rule, Language.mem_add]
  cases p <;> cases hp <;> tauto

theorem Phrase.mem_kstar_cons {l : Language Token.Kind} {us : List Token}
    (hts : ts.map Token.kind ∈ l) (hus : us.map Token.kind ∈ l∗) :
    (ts ++ us).map Token.kind ∈ l∗ :=
  (mul_kstar_le_kstar : l * l∗ ≤ l∗) (mem_mul hts hus)

mutual

theorem DerivesStmt.generated {ts : List Token} {a : Tree} :
    DerivesStmt ts a → Bare ts → ts.map Token.kind ∈ generated .statement
  | .block _ _ h, hbare => mem_statement (h.generated hbare) rfl
  | .declaration _ _ h, hbare => mem_statement (h.generated hbare) rfl
  | .exprStmt t c ts a ha hc, hbare =>
    mem_generated
      (.inr (mem_mul (x := t :: ts) (ha.follows (Bare.left (y := [c]) hbare)).mem (mem_single hc)))
  | .returnNothing w c hw hc, _ =>
    mem_statement (p := .returnStmt)
      (mem_generated (mem_mul (mem_optional (mem_single hw)) (mem_single hc))) rfl
  | .returnValue w c ts a hw ha hc, hbare => by
    have hts := (ha.follows (hbare.tail (endsOperand_keyword hw)).left).mem
    exact mem_statement (p := .returnStmt)
      (mem_generated (mem_mul (mem_mul (mem_single hw) (.inr hts)) (mem_single hc))) rfl
  | .breakStmt w c hw hc, _ =>
    mem_statement (p := .breakStmt) (mem_generated (mem_mul (mem_single hw) (mem_single hc))) rfl
  | .continueStmt w c hw hc, _ =>
    mem_statement (p := .continueStmt) (mem_generated (mem_mul (mem_single hw) (mem_single hc))) rfl
  | .conditional w o c ts us vs a body branches hw ho ha hc hbody hbranches, hbare => by
    have hrest := (hbare.tail (endsOperand_keyword hw)).tail (endsOperand_openParen ho)
    rw [List.append_cons] at hrest
    have hbodyRest : Bare (us ++ vs) := hbody.bare hrest
    have hts := (ha.follows hrest.left.left).mem
    have hus := hbody.generated hbodyRest.left
    have hvs := hbranches.generated (hbodyRest.right hbody.endsApart)
    have htokens : w :: o :: (ts ++ c :: (us ++ vs)) = [w] ++ o :: (ts ++ [c]) ++ us ++ vs := by
      simp
    refine mem_statement (p := .conditional) (mem_generated ?_) rfl
    rw [htokens, rule, mul_assoc (_ * generated .block)]
    exact mem_mul (mem_mul (mem_mul (mem_single hw) (mem_inParens ho hts hc)) hus) hvs
  | .whileLoop w o c ts us a body hw ho ha hc hbody, hbare => by
    have hrest := (hbare.tail (endsOperand_keyword hw)).tail (endsOperand_openParen ho)
    rw [List.append_cons] at hrest
    have hts := (ha.follows hrest.left.left).mem
    have hus := hbody.generated (hbody.bare (y := []) (by rwa [List.append_nil])).left
    have htokens : w :: o :: (ts ++ c :: us) = [w] ++ o :: (ts ++ [c]) ++ us := by simp
    refine mem_statement (p := .whileLoop) (mem_generated ?_) rfl
    rw [htokens]
    exact mem_mul (mem_mul (mem_single hw) (mem_inParens ho hts hc)) hus
  | .doWhile w v o c z ts us body a hw hbody hv ho ha hc hz, hbare => by
    have hrest := hbare.tail (endsOperand_keyword hw)
    have hus := hbody.generated hrest.left
    have hts :=
      (ha.follows ((hrest.behind (endsOperand_keyword hv)).tail
        (endsOperand_openParen ho)).left).mem
    have htokens : w :: (us ++ v :: o :: (ts ++ [c, z])) = [w] ++ us ++ [v] ++ o :: (ts ++ [c]) ++
      [z] := by simp
    refine mem_statement (p := .doWhile) (mem_generated ?_) rfl
    rw [htokens]
    exact mem_mul (mem_mul (mem_mul (mem_mul (mem_single hw) hus) (mem_single hv))
      (mem_inParens ho hts hc)) (mem_single hz)
  | .forLoop w o z c ts us vs ws first a step body hw ho hfirst ha hz hstep hc hbody, hbare => by
    have hheader := (hbare.tail (endsOperand_keyword hw)).tail (endsOperand_openParen ho)
    have htail := hheader.right hfirst.endsApart
    have hlast := htail.behind (by rw [hz]; rfl)
    have hts := hfirst.generated hheader.left
    have hus := ha.generated htail.left
    have hvs := hstep.generated hlast.left
    rw [List.append_cons] at hlast
    have hws := hbody.generated (hbody.bare (y := []) (by rwa [List.append_nil])).left
    have htokens : w :: o :: (ts ++ (us ++ z :: (vs ++ c :: ws))) =
      [w] ++ o :: (ts ++ us ++ [z] ++ vs ++ [c]) ++ ws := by simp
    refine mem_statement (p := .forLoop) (mem_generated ?_) rfl
    rw [htokens]
    exact mem_mul (mem_mul (mem_single hw)
      (mem_inParens ho (mem_mul (mem_mul (mem_mul hts hus) (mem_single hz)) hvs) hc)) hws

theorem DerivesBlock.generated {ts : List Token} {a : Tree} :
    DerivesBlock ts a → Bare ts → ts.map Token.kind ∈ generated .block
  | .mk o c ts as ho h hc, hbare => by
    have hts := h.generated (hbare.tail (by rw [ho]; rfl)).left
    exact mem_generated (mem_mul (mem_mul (mem_single ho) hts) (mem_single hc))

theorem DerivesStmts.generated {ts : List Token} {as : List Tree} : DerivesStmts ts as → Bare ts →
    ts.map Token.kind ∈ (generated .statement + sign .semicolon)∗
  | .nil, _ => Language.nil_mem_kstar _
  | .skip c ts as hc h, hbare =>
    mem_kstar_cons (.inr (mem_single hc)) (h.generated (hbare.tail (by rw [hc]; rfl)))
  | .cons ts us a as h has, hbare =>
    mem_kstar_cons (.inl (h.generated hbare.left)) (has.generated (hbare.right h.endsApart))

theorem DerivesBranches.generated {ts : List Token} {as : List Tree} :
    DerivesBranches ts as → Bare ts → ts.map Token.kind ∈
    (word .elseKw * word .ifKw * Phrase.inParens (generated .expression) * generated
      .block)∗ * (1 + word .elseKw * generated .block)
  | .nil, _ => mem_mul (x := []) (y := []) (Language.nil_mem_kstar _) (.inl rfl)
  | .last w ts body hw h, hbare =>
    mem_mul (x := []) (Language.nil_mem_kstar _)
      (.inr (mem_mul (mem_single hw) (h.generated (hbare.tail (endsOperand_keyword hw)))))
  | .elseIf w v o c ts us vs a body branches hw hv ho ha hc hbody h, hbare => by
    have hrest := ((hbare.tail (endsOperand_keyword hw)).tail (endsOperand_keyword hv)).tail
      (endsOperand_openParen ho)
    rw [List.append_cons] at hrest
    have hbodyRest : Bare (us ++ vs) := hbody.bare hrest
    have hts := (ha.follows hrest.left.left).mem
    have hus := hbody.generated hbodyRest.left
    have hvs := h.generated (hbodyRest.right hbody.endsApart)
    obtain ⟨xs, ys, rfl, hxs, hys⟩ := map_mem_mul.mp hvs
    have htokens : w :: v :: o :: (ts ++ c :: (us ++ (xs ++ ys))) =
      ([w] ++ [v] ++ o :: (ts ++ [c]) ++ us ++ xs) ++ ys := by simp
    rw [htokens]
    exact mem_mul (mem_kstar_cons
      (mem_mul (mem_mul (mem_mul (mem_single hw) (mem_single hv)) (mem_inParens ho hts hc)) hus)
      hxs) hys

end

/-! ## Programs -/

theorem DerivesParameter.generated (h : DerivesParameter ts a) (_ : Bare ts) :
    ts.map Token.kind ∈ generated .arg := by
  refine mem_generated ?_
  cases h with
  | plain ty x hty hx => exact mem_optional (mem_mul (mem_type hty) (mem_single hx))
  | array ty x o c hty hx ho hc =>
    exact mem_mul (mem_mul (mem_type hty) (mem_single hx))
      (.inr (mem_mul (mem_single ho) (mem_single hc)))

theorem DerivesFunction.generated (h : DerivesFunction ts a) (hbare : Bare ts) :
    ts.map Token.kind ∈ generated .function := by
  obtain ⟨w, ty, x, o, ts, us, ps, body, hw, hty, hx, ho, hps, hbody⟩ := h
  have hrest : Bare (ts ++ us) := Bare.behind (x := [w, ty, x]) hbare (endsOperand_openParen ho)
  have hus := hbody.generated (hbody.bare (y := []) (by rwa [List.append_nil])).left
  obtain ⟨vs, c, rfl, hvs, hc⟩ : ∃ vs c, ts = vs ++ [c] ∧
      vs.map Token.kind ∈ 1 + commaList (Phrase.generated .arg) ∧
      c.kind = .symbol .closeParen := by
    cases hps with
    | none c hc => exact ⟨[], c, rfl, .inl rfl, hc⟩
    | some vs c ps hps hc =>
      exact ⟨vs, c, rfl, .inr (hps.mem_commaList DerivesParameter.generated hrest.left.left), hc⟩
  have htokens : w :: ty :: x :: o :: (vs ++ [c] ++ us) = [w] ++ [ty] ++ [x] ++ o :: (vs ++ [c]) ++
    us := by simp
  rw [htokens]
  exact mem_generated
    (mem_mul (mem_mul (mem_mul (mem_mul (mem_single hw) (mem_type hty)) (mem_single hx))
      (mem_inParens ho hvs hc)) hus)

theorem DerivesItems.generated {as : List Tree} (h : DerivesItems ts as) (hbare : Bare ts) :
    ts.map Token.kind ∈ generated .program := by
  refine mem_generated ?_
  show _ ∈ (Phrase.generated .function + Phrase.generated .statement + sign .semicolon)∗
  induction h with
  | nil => exact Language.nil_mem_kstar _
  | skip c ts as hc _ ih =>
    exact mem_kstar_cons (.inr (mem_single hc)) (ih (hbare.tail (by rw [hc]; rfl)))
  | function ts us a as h _ ih =>
    exact mem_kstar_cons (.inl (.inl (h.generated hbare.left))) (ih (hbare.right h.endsApart))
  | stmt ts us a as h _ ih =>
    exact mem_kstar_cons (.inl (.inr (h.generated hbare.left))) (ih (hbare.right h.endsApart))

/-- **The rules generate what is parsed without errors and calls no name in parentheses.** -/
theorem scan_mem_generated_iff (source : String) :
    ((Token.scan source).takeWhile Parser.isBefore).map Token.kind ∈ generated .program ↔
      (parse source).2 = #[] ∧
        ¬CallsWrapped (((Token.scan source).takeWhile Parser.isBefore).map Token.kind) := by
  constructor
  · intro h
    obtain ⟨as, has⟩ := of_mem_accepted (generated_le_derived .program h)
    exact ⟨parse_eq_empty_iff.mpr ⟨as, has⟩, not_callsWrapped_of_mem h⟩
  · rintro ⟨herrors, hbare⟩
    obtain ⟨as, has⟩ := parse_eq_empty_iff.mp herrors
    exact has.generated hbare

/-- An index of a name in parentheses. -/
def wrappedIndex : String := "(x)[0];"

/-- **The parser takes more than the rules generate.** -/
theorem exists_parse_not_generated : ∃ source, (parse source).2 = #[] ∧
    ((Token.scan source).takeWhile Parser.isBefore).map Token.kind ∉ generated .program := by
  have hfacts : (parse wrappedIndex).2 = #[] ∧
      ((Token.scan wrappedIndex).takeWhile Parser.isBefore).map Token.kind =
      [] ++ wrapped 1 ++ [.symbol .openBracket, .number, .symbol .closeBracket,
        .symbol .semicolon] := by decide +kernel
  refine ⟨wrappedIndex, hfacts.1, fun h => not_callsWrapped_of_mem h ?_⟩
  exact ⟨[], _, 0, .openBracket, hfacts.2, fun _ hk => (by cases hk), .inr rfl⟩

end Stacklet
