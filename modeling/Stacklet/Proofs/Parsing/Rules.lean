import Mathlib.Computability.Language
import Mathlib.Order.ConditionallyCompleteLattice.Basic
import Mathlib.Order.FixedPoints
import Mathlib.Order.CompletePartialOrder
import Stacklet.Proofs.Parsing.Acceptance
import Stacklet.Proofs.Parsing.Printer
/-!
# The grammar as rules

* `Phrase.rule`: the rules of the language over kinds of tokens, with products for sequences, sums
  for choices, `1 + x` for what may be left out and `x∗` for what may be repeated. Suffixes follow a
  name that stands without parentheses.
* `Phrase.generated`: the sequences that the rules generate, as their least fixed point.
* `Phrase.generated_le_derived`: tokens of generated kinds are derived.
-/

namespace Stacklet

open scoped Computability

/-- What the rules define. -/
inductive Phrase where
  | program | function | arg | block | statement | varDecls | var | conditional | whileLoop
  | doWhile | forLoop
  | returnStmt | breakStmt | continueStmt | expression | assignment | target | equality | relational
  | additive | term
  | unary | suffixed | primary

theorem Separated.snoc {D : List Token → Tree → Prop} {ts us : List Token} {as : List Tree}
    {a : Tree} {c : Token} (h : Separated D ts as) (hc : c.kind = .symbol .comma) (ha : D us a) :
    Separated D (ts ++ c :: us) (as ++ [a]) := by
  induction h with
  | one ts b hb => exact .cons ts us c b [a] hb hc (.one us a ha)
  | cons ts vs c' b bs hb hc' _ ih =>
    rw [List.append_assoc, List.cons_append]
    exact .cons ts _ c' b _ hb hc' ih

namespace Phrase

/-! ## Rules -/

def single (k : Token.Kind) : Language Token.Kind := {[k]}

def sign (s : Symbol) : Language Token.Kind := single (.symbol s)

def word (k : Keyword) : Language Token.Kind := single (.keyword k)

def name : Language Token.Kind := single .name

def type : Language Token.Kind := {ks | ∃ k : Token.Kind, k.isType ∧ ks = [k]}

def anyOf (ss : List Symbol) : Language Token.Kind := {ks | ∃ s ∈ ss, ks = [.symbol s]}

def inParens (l : Language Token.Kind) : Language Token.Kind :=
  sign .openParen * l * sign .closeParen

def inBrackets (l : Language Token.Kind) : Language Token.Kind :=
  sign .openBracket * l * sign .closeBracket

/-- At least one, with commas between them. -/
def commaList (l : Language Token.Kind) : Language Token.Kind := l * (sign .comma * l)∗

/-- Operands with operators between them. -/
def chain (ss : List Symbol) (l : Language Token.Kind) : Language Token.Kind := l * (anyOf ss * l)∗

section Rule

variable (L : Phrase → Language Token.Kind)

/-- The arguments of a call. -/
def call : Language Token.Kind := inParens (1 + commaList (L assignment))

def index : Language Token.Kind := inBrackets (L expression)

/-- **The rules**: what each phrase is made of. What is assigned to has to be a name or an element,
and a declared variable has an initial value or a size, not both. -/
def rule : Phrase → Language Token.Kind
  | program => (L function + L statement + sign .semicolon)∗
  | function => word .fnKw * type * name * inParens (1 + commaList (L arg)) * L block
  | arg => type * name * (1 + sign .openBracket * sign .closeBracket)
  | block => sign .openBrace * (L statement + sign .semicolon)∗ * sign .closeBrace
  | statement =>
    L block + L conditional + L whileLoop + L doWhile + L forLoop + L returnStmt + L breakStmt + L
      continueStmt + L varDecls +
      L expression * sign .semicolon
  | varDecls => type * commaList (L var) * sign .semicolon
  | var => name * (1 + sign .assign * L assignment + inBrackets (L expression))
  | conditional =>
    word .ifKw * inParens (L expression) * L
      block * (word .elseKw * word .ifKw * inParens (L expression) * L block)∗ *
      (1 + word .elseKw * L block)
  | whileLoop => word .whileKw * inParens (L expression) * L block
  | doWhile => word .doKw * L block * word .whileKw * inParens (L expression) * sign .semicolon
  | forLoop =>
    word .forKw *
      inParens ((L varDecls + (1 + L expression) * sign .semicolon) * (1 + L expression) * sign
        .semicolon * (1 + L expression)) *
      L block
  | returnStmt => word .returnKw * (1 + L expression) * sign .semicolon
  | breakStmt => word .breakKw * sign .semicolon
  | continueStmt => word .continueKw * sign .semicolon
  | expression => L assignment * (1 + sign .comma * L expression)
  | assignment => L equality + (L equality ⊓ L target) * sign .assign * L assignment
  | target => name * (1 + (call L + index L)∗ * index L) + inParens (L target)
  | equality => chain [.eq, .ne] (L relational)
  | relational => chain [.lt, .le, .gt, .ge] (L additive)
  | additive => chain [.plus, .minus] (L term)
  | term => chain [.star, .slash, .percent] (L unary)
  | unary => anyOf [.plus, .minus, .bang] * L unary + L suffixed
  | suffixed => name * (call L + index L)∗ + L primary
  | primary => single .number + single .string + name + inParens (L expression)

end Rule

theorem rule_mono : Monotone rule := by
  intro L L' h p
  have h (q : Phrase) : L q ≤ L' q := h q
  cases p <;> simp only [rule, inParens, inBrackets, commaList, chain, call, index] <;>
    gcongr <;> exact h _

/-- **What the rules generate.** -/
def generated : Phrase → Language Token.Kind := OrderHom.lfp ⟨rule, rule_mono⟩

theorem rule_generated : rule generated = generated := OrderHom.map_lfp ⟨rule, rule_mono⟩

/-- What is closed under the rules has all that is generated. -/
theorem generated_le {L : Phrase → Language Token.Kind} (h : ∀ p, rule L p ≤ L p) (p : Phrase) :
    generated p ≤ L p :=
  OrderHom.lfp_le ⟨rule, rule_mono⟩ h p

/-! ## Tokens of given kinds -/

def accepted (D : List Token → Prop) : Language Token.Kind :=
  {ks | ∀ ts : List Token, ts.map Token.kind = ks → D ts}

variable {D : List Token → Prop} {l m : Language Token.Kind} {ts : List Token}

theorem le_accepted : l ≤ accepted D ↔ ∀ ts : List Token, ts.map Token.kind ∈ l → D ts :=
  ⟨fun h ts hts => h hts ts rfl, fun h _ hks ts hts => h ts (hts ▸ hks)⟩

theorem of_mem_accepted (h : ts.map Token.kind ∈ accepted D) : D ts := h ts rfl

theorem map_mem_mul : ts.map Token.kind ∈ l * m ↔
    ∃ us vs, ts = us ++ vs ∧ us.map Token.kind ∈ l ∧ vs.map Token.kind ∈ m := by
  constructor
  · rintro ⟨ks, hks, js, hjs, hts⟩
    obtain ⟨us, vs, rfl, rfl, rfl⟩ := List.map_eq_append_iff.mp hts.symm
    exact ⟨us, vs, rfl, hks, hjs⟩
  · rintro ⟨us, vs, rfl, hus, hvs⟩
    rw [List.map_append]
    exact Language.append_mem_mul hus hvs

theorem map_mem_one : ts.map Token.kind ∈ (1 : Language Token.Kind) ↔ ts = [] := by
  rw [Language.mem_one, List.map_eq_nil_iff]

theorem map_mem_single {k : Token.Kind} :
    ts.map Token.kind ∈ single k ↔ ∃ t : Token, ts = [t] ∧ t.kind = k := by
  constructor
  · intro h
    obtain ⟨t, rfl, hk⟩ := List.map_eq_singleton_iff.mp h
    exact ⟨t, rfl, hk⟩
  · rintro ⟨t, rfl, rfl⟩
    rfl

theorem map_mem_type : ts.map Token.kind ∈ type ↔ ∃ t : Token, ts = [t] ∧ t.kind.isType := by
  constructor
  · rintro ⟨k, hk, hts⟩
    obtain ⟨t, rfl, rfl⟩ := List.map_eq_singleton_iff.mp hts
    exact ⟨t, rfl, hk⟩
  · rintro ⟨t, rfl, ht⟩
    exact ⟨t.kind, ht, rfl⟩

theorem map_mem_anyOf {ss : List Symbol} :
    ts.map Token.kind ∈ anyOf ss ↔ ∃ t : Token, ts = [t] ∧ Parser.isOneOf ss t.kind := by
  constructor
  · rintro ⟨s, hs, hts⟩
    obtain ⟨t, rfl, hk⟩ := List.map_eq_singleton_iff.mp hts
    exact ⟨t, rfl, by rw [hk]; exact List.contains_iff_mem.mpr hs⟩
  · rintro ⟨t, rfl, ht⟩
    match hk : t.kind, ht with
    | .symbol s, ht => exact ⟨s, List.contains_iff_mem.mp ht, by rw [List.map_singleton, hk]⟩

theorem map_mem_between {s s' : Symbol} : ts.map Token.kind ∈ sign s * l * sign s' ↔
    ∃ (o : Token) (us : List Token) (c : Token), ts = o :: (us ++ [c]) ∧ o.kind = .symbol s ∧
      us.map Token.kind ∈ l ∧ c.kind = .symbol s' := by
  simp only [sign, map_mem_mul, map_mem_single]
  constructor
  · rintro ⟨_, _, rfl, ⟨_, us, rfl, ⟨o, rfl, ho⟩, hus⟩, c, rfl, hc⟩
    exact ⟨o, us, c, rfl, ho, hus, hc⟩
  · rintro ⟨o, us, c, rfl, ho, hus, hc⟩
    exact ⟨_, _, rfl, ⟨_, us, rfl, ⟨o, rfl, ho⟩, hus⟩, c, rfl, hc⟩

theorem map_mem_inParens : ts.map Token.kind ∈ inParens l ↔
    ∃ (o : Token) (us : List Token) (c : Token), ts = o :: (us ++ [c]) ∧
      o.kind = .symbol .openParen ∧ us.map Token.kind ∈ l ∧ c.kind = .symbol .closeParen :=
  map_mem_between

theorem map_mem_inBrackets : ts.map Token.kind ∈ inBrackets l ↔
    ∃ (o : Token) (us : List Token) (c : Token), ts = o :: (us ++ [c]) ∧
      o.kind = .symbol .openBracket ∧ us.map Token.kind ∈ l ∧ c.kind = .symbol .closeBracket :=
  map_mem_between

/-! ## Generated kinds are derived -/

/-- The tokens of each phrase, as they are derived. -/
def Derived : Phrase → List Token → Prop
  | program, ts => ∃ as, DerivesItems ts as
  | function, ts => ∃ a, DerivesFunction ts a
  | arg, ts => ∃ a, DerivesParameter ts a
  | block, ts => ∃ a, DerivesBlock ts a
  | varDecls, ts => ∃ a, DerivesDeclaration ts a
  | var, ts => ∃ a, DerivesDeclarator ts a
  | statement, ts | conditional, ts | whileLoop, ts | doWhile, ts | forLoop, ts | returnStmt, ts
  | breakStmt, ts
  | continueStmt, ts => ∃ a, DerivesStmt ts a
  | expression, ts => ∃ a, Derives .expression ts a
  | assignment, ts => ∃ a, Derives .assignment ts a
  | target, ts => ∃ a, Derives .suffixed ts a ∧ Parser.isTarget a.kind
  | equality, ts => ∃ a, Derives .equality ts a
  | relational, ts => ∃ a, Derives .relational ts a
  | additive, ts => ∃ a, Derives .additive ts a
  | term, ts => ∃ a, Derives .term ts a
  | unary, ts => ∃ a, Derives .unary ts a
  | suffixed, ts => ∃ a, Derives .suffixed ts a
  | primary, ts => ∃ a, Derives .primary ts a

/-- The kinds of the tokens of each phrase. -/
def derived (p : Phrase) : Language Token.Kind := accepted (Derived p)

theorem commaList_le {D : List Token → Tree → Prop} (h : l ≤ accepted fun ts => ∃ a, D ts a) :
    commaList l ≤ accepted fun ts => ∃ as, Separated D ts as := by
  refine mul_kstar_le (h.trans (le_accepted.mpr fun ts hts => ?_))
    (le_accepted.mpr fun ts hts => ?_)
  · obtain ⟨a, ha⟩ := of_mem_accepted hts
    exact ⟨[a], .one ts a ha⟩
  · simp only [sign, map_mem_mul, map_mem_single] at hts
    obtain ⟨us, _, rfl, hus, _, vs, rfl, ⟨c, rfl, hc⟩, hvs⟩ := hts
    obtain ⟨as, has⟩ := of_mem_accepted hus
    obtain ⟨a, ha⟩ := of_mem_accepted (h hvs)
    exact ⟨as ++ [a], has.snoc hc ha⟩

theorem chain_le (lv : Precedence) (hl : lv.isBinary) :
    chain lv.operators (accepted fun ts => ∃ a, Derives lv.next ts a) ≤ accepted fun ts => ∃ a,
      Derives lv ts a := by
  refine mul_kstar_le (le_accepted.mpr fun ts hts => ?_) (le_accepted.mpr fun ts hts => ?_)
  · obtain ⟨a, ha⟩ := of_mem_accepted hts
    refine ⟨a, .tighter lv ts a ?_ ha⟩
    rintro rfl
    cases hl
  · simp only [map_mem_mul, map_mem_anyOf] at hts
    obtain ⟨us, _, rfl, hus, _, vs, rfl, ⟨op, rfl, hop⟩, hvs⟩ := hts
    obtain ⟨a, ha⟩ := of_mem_accepted hus
    obtain ⟨b, hb⟩ := of_mem_accepted hvs
    obtain ⟨s, hk, hs⟩ := (Precedence.isOneOf_operators hl op.kind).mp hop
    exact ⟨_, .binary lv us vs op s a b hl ha hk hs hb⟩

theorem name_suffixes_le :
    name * (call derived + index derived)∗ ≤ accepted fun ts => ∃ a, DerivesChain ts a := by
  refine mul_kstar_le (le_accepted.mpr fun ts hts => ?_) (le_accepted.mpr fun ts hts => ?_)
  · obtain ⟨x, rfl, hx⟩ := map_mem_single.mp hts
    exact ⟨_, .base _ _ (.name x hx) rfl⟩
  · obtain ⟨us, _, rfl, hus, hvs⟩ := map_mem_mul.mp hts
    obtain ⟨f, hf⟩ := of_mem_accepted hus
    rcases hvs with hvs | hvs
    · obtain ⟨o, vs, c, rfl, ho, hargs | hargs, hc⟩ := map_mem_inParens.mp hvs
      · obtain rfl := map_mem_one.mp hargs
        exact ⟨_, .callNone us o c f hf ho hc⟩
      · obtain ⟨args, hargs⟩ :=
          of_mem_accepted (commaList_le (l := derived assignment) le_rfl hargs)
        exact ⟨_, .call us vs o c f args hf ho hargs.derivesList hc⟩
    · obtain ⟨o, vs, c, rfl, ho, hi, hc⟩ := map_mem_inBrackets.mp hvs
      obtain ⟨i, hi⟩ := of_mem_accepted hi
      exact ⟨_, .index us vs o c f i hf ho hi hc⟩

theorem rule_target_le : rule derived target ≤ derived target := by
  refine le_accepted.mpr fun ts hts => ?_
  rcases hts with hts | hts
  · obtain ⟨us, vs, rfl, hus, hvs | hvs⟩ := map_mem_mul.mp hts
    · obtain ⟨x, rfl, hx⟩ := map_mem_single.mp hus
      obtain rfl := map_mem_one.mp hvs
      exact ⟨_, .chain _ _ (.base _ _ (.name x hx) rfl), rfl⟩
    · obtain ⟨vs, ws, rfl, hvs, hws⟩ := map_mem_mul.mp hvs
      obtain ⟨a, ha⟩ := of_mem_accepted (name_suffixes_le (map_mem_mul.mpr ⟨us, vs, rfl, hus, hvs⟩))
      obtain ⟨o, ws, c, rfl, ho, hi, hc⟩ := map_mem_inBrackets.mp hws
      obtain ⟨i, hi⟩ := of_mem_accepted hi
      rw [← List.append_assoc]
      exact ⟨_, .chain _ _ (.index _ ws o c a i ha ho hi hc), rfl⟩
  · obtain ⟨o, us, c, rfl, ho, hus, hc⟩ := map_mem_inParens.mp hts
    obtain ⟨a, ha, htarget⟩ := of_mem_accepted hus
    have hparens : Derives .primary (o :: (us ++ [c])) a :=
      .parens us o c a ho (ha.looser (by decide)) hc
    exact ⟨a, hparens.looser (by decide), htarget⟩

theorem rule_assignment_le : rule derived assignment ≤ derived assignment := by
  refine le_accepted.mpr fun ts hts => ?_
  simp only [rule, sign, Language.mem_add, map_mem_mul, map_mem_single] at hts
  rcases hts with hts | ⟨_, vs, rfl, ⟨us, _, rfl, hus, c, rfl, hc⟩, hvs⟩
  · obtain ⟨a, ha⟩ := of_mem_accepted hts
    exact ⟨a, ha.looser (by decide)⟩
  · obtain ⟨a, ha, htarget⟩ := of_mem_accepted hus.2
    obtain ⟨b, hb⟩ := of_mem_accepted hvs
    rw [List.append_assoc]
    exact ⟨_, .assign us vs c a b (ha.looser (by decide)) htarget hc hb⟩

theorem rule_expression_le : rule derived expression ≤ derived expression := by
  refine le_accepted.mpr fun ts hts => ?_
  simp only [rule, sign, Language.mem_add, map_mem_mul, map_mem_single, map_mem_one] at hts
  obtain ⟨us, _, rfl, hus, rfl | ⟨_, vs, rfl, ⟨c, rfl, hc⟩, hvs⟩⟩ := hts
  · obtain ⟨a, ha⟩ := of_mem_accepted hus
    rw [List.append_nil]
    exact ⟨a, ha.looser (by decide)⟩
  · obtain ⟨a, ha⟩ := of_mem_accepted hus
    obtain ⟨b, hb⟩ := of_mem_accepted hvs
    exact ⟨_, .comma us vs c a b ha hc hb⟩

theorem rule_unary_le : rule derived unary ≤ derived unary := by
  refine le_accepted.mpr fun ts hts => ?_
  simp only [rule, Language.mem_add, map_mem_mul, map_mem_anyOf] at hts
  rcases hts with ⟨_, us, rfl, ⟨op, rfl, hop⟩, hus⟩ | hts
  · obtain ⟨a, ha⟩ := of_mem_accepted hus
    have hprefix : op.isPrefixOp := by
      match hk : op.kind, hop with
      | .symbol s, hop => simpa [Parser.isOneOf, Token.isPrefixOp, hk] using hop
    exact ⟨_, .unary us op a hprefix ha⟩
  · obtain ⟨a, ha⟩ := of_mem_accepted hts
    exact ⟨a, ha.looser (by decide)⟩

theorem rule_suffixed_le : rule derived suffixed ≤ derived suffixed := by
  refine add_le (name_suffixes_le.trans (le_accepted.mpr fun ts hts => ?_))
    (le_accepted.mpr fun ts hts => ?_)
  · obtain ⟨a, ha⟩ := of_mem_accepted hts
    exact ⟨a, .chain ts a ha⟩
  · obtain ⟨a, ha⟩ := of_mem_accepted hts
    exact ⟨a, ha.looser (by decide)⟩

theorem rule_primary_le : rule derived primary ≤ derived primary := by
  refine le_accepted.mpr fun ts hts => ?_
  rcases hts with ((hts | hts) | hts) | hts
  · obtain ⟨t, rfl, hk⟩ := map_mem_single.mp hts
    exact ⟨_, .number t hk⟩
  · obtain ⟨t, rfl, hk⟩ := map_mem_single.mp hts
    exact ⟨_, .string t hk⟩
  · obtain ⟨t, rfl, hk⟩ := map_mem_single.mp hts
    exact ⟨_, .name t hk⟩
  · obtain ⟨o, us, c, rfl, ho, hus, hc⟩ := map_mem_inParens.mp hts
    obtain ⟨a, ha⟩ := of_mem_accepted hus
    exact ⟨a, .parens us o c a ho ha hc⟩

theorem rule_var_le : rule derived var ≤ derived var := by
  refine le_accepted.mpr fun ts hts => ?_
  simp only [rule, name, sign, Language.mem_add, map_mem_mul, map_mem_single, map_mem_one,
    map_mem_inBrackets] at hts
  obtain ⟨_, _, rfl, ⟨x, rfl, hx⟩,
    (rfl | ⟨_, vs, rfl, ⟨c, rfl, hc⟩, hvs⟩) | ⟨o, vs, c, rfl, ho, ha, hc⟩⟩ := hts
  · exact ⟨_, .plain x hx⟩
  · obtain ⟨a, ha⟩ := of_mem_accepted hvs
    exact ⟨_, .initial x c vs a hx hc ha⟩
  · obtain ⟨a, ha⟩ := of_mem_accepted ha
    exact ⟨_, .array x o c vs a hx ho ha hc⟩

theorem rule_varDecls_le : rule derived varDecls ≤ derived varDecls := by
  refine le_accepted.mpr fun ts hts => ?_
  simp only [rule, sign, map_mem_mul, map_mem_single, map_mem_type] at hts
  obtain ⟨_, _, rfl, ⟨_, us, rfl, ⟨ty, rfl, hty⟩, hus⟩, c, rfl, hc⟩ := hts
  obtain ⟨ds, hds⟩ := of_mem_accepted (commaList_le (l := derived var) le_rfl hus)
  exact ⟨_, .mk ty c us ds hty hds hc⟩

theorem rule_block_le : rule derived block ≤ derived block := by
  have hstmts : (derived statement + sign .semicolon)∗ ≤ accepted fun ts => ∃ as,
      DerivesStmts ts as := by
    refine kstar_le_of_mul_le_right (le_accepted.mpr fun ts hts => ?_)
      (le_accepted.mpr fun ts hts => ?_)
    · obtain rfl := map_mem_one.mp hts
      exact ⟨[], .nil⟩
    · obtain ⟨us, vs, rfl, hus, hvs⟩ := map_mem_mul.mp hts
      obtain ⟨as, has⟩ := of_mem_accepted hvs
      rcases hus with hus | hus
      · obtain ⟨a, ha⟩ := of_mem_accepted hus
        exact ⟨a :: as, .cons us vs a as ha has⟩
      · obtain ⟨c, rfl, hc⟩ := map_mem_single.mp hus
        exact ⟨as, .skip c vs as hc has⟩
  refine le_accepted.mpr fun ts hts => ?_
  simp only [rule, sign, map_mem_mul, map_mem_single] at hts
  obtain ⟨_, _, rfl, ⟨_, us, rfl, ⟨o, rfl, ho⟩, hus⟩, c, rfl, hc⟩ := hts
  obtain ⟨as, has⟩ := of_mem_accepted (hstmts hus)
  exact ⟨_, .mk o c us as ho has hc⟩

theorem rule_conditional_le : rule derived conditional ≤ derived conditional := by
  have hbranches : (word .elseKw * word .ifKw * inParens (derived expression) * derived block)∗ *
      (1 + word .elseKw * derived block) ≤ accepted fun ts => ∃ as, DerivesBranches ts as := by
    refine kstar_mul_le (le_accepted.mpr fun ts hts => ?_) (le_accepted.mpr fun ts hts => ?_)
    · simp only [word, Language.mem_add, map_mem_mul, map_mem_single, map_mem_one] at hts
      rcases hts with rfl | ⟨_, us, rfl, ⟨w, rfl, hw⟩, hus⟩
      · exact ⟨[], .nil⟩
      · obtain ⟨body, hbody⟩ := of_mem_accepted hus
        exact ⟨_, .last w us body hw hbody⟩
    · simp only [word, map_mem_mul, map_mem_single, map_mem_inParens] at hts
      obtain ⟨_, vs, rfl, ⟨_, us, rfl,
        ⟨_, _, rfl, ⟨_, _, rfl, ⟨w, rfl, hw⟩, v, rfl, hv⟩, o, ts, c, rfl, ho, hts, hc⟩, hus⟩,
        hvs⟩ := hts
      obtain ⟨a, ha⟩ := of_mem_accepted hts
      obtain ⟨body, hbody⟩ := of_mem_accepted hus
      obtain ⟨as, has⟩ := of_mem_accepted hvs
      have h := DerivesBranches.elseIf w v o c ts us vs a body as hw hv ho ha hc hbody has
      simp only [List.append_assoc, List.cons_append, List.nil_append] at h ⊢
      exact ⟨_, h⟩
  refine le_accepted.mpr fun ts hts => ?_
  rw [rule, mul_assoc (_ * derived block)] at hts
  obtain ⟨_, vs, rfl, hts, hvs⟩ := map_mem_mul.mp hts
  simp only [word, map_mem_mul, map_mem_single, map_mem_inParens] at hts
  obtain ⟨_, us, rfl, ⟨_, _, rfl, ⟨w, rfl, hw⟩, o, ts, c, rfl, ho, hts, hc⟩, hus⟩ := hts
  obtain ⟨a, ha⟩ := of_mem_accepted hts
  obtain ⟨body, hbody⟩ := of_mem_accepted hus
  obtain ⟨as, has⟩ := of_mem_accepted (hbranches hvs)
  have h := DerivesStmt.conditional w o c ts us vs a body as hw ho ha hc hbody has
  simp only [List.append_assoc, List.cons_append, List.nil_append] at h ⊢
  exact ⟨_, h⟩

theorem rule_whileLoop_le : rule derived whileLoop ≤ derived whileLoop := by
  refine le_accepted.mpr fun ts hts => ?_
  simp only [rule, word, map_mem_mul, map_mem_single, map_mem_inParens] at hts
  obtain ⟨_, us, rfl, ⟨_, _, rfl, ⟨w, rfl, hw⟩, o, ts, c, rfl, ho, hts, hc⟩, hus⟩ := hts
  obtain ⟨a, ha⟩ := of_mem_accepted hts
  obtain ⟨body, hbody⟩ := of_mem_accepted hus
  have h := DerivesStmt.whileLoop w o c ts us a body hw ho ha hc hbody
  simp only [List.append_assoc, List.cons_append, List.nil_append] at h ⊢
  exact ⟨_, h⟩

theorem rule_doWhile_le : rule derived doWhile ≤ derived doWhile := by
  refine le_accepted.mpr fun ts hts => ?_
  simp only [rule, word, sign, map_mem_mul, map_mem_single, map_mem_inParens] at hts
  obtain ⟨_, _, rfl, ⟨_, _, rfl, ⟨_, _, rfl, ⟨_, us, rfl, ⟨w, rfl, hw⟩, hus⟩, v, rfl, hv⟩, o, ts, c,
    rfl, ho, hts, hc⟩, z, rfl, hz⟩ := hts
  obtain ⟨a, ha⟩ := of_mem_accepted hts
  obtain ⟨body, hbody⟩ := of_mem_accepted hus
  have h := DerivesStmt.doWhile w v o c z ts us body a hw hbody hv ho ha hc hz
  simp only [List.append_assoc, List.cons_append, List.nil_append] at h ⊢
  exact ⟨_, h⟩

theorem derivesOptional_of_mem (h : ts.map Token.kind ∈ 1 + derived expression) (c : Token) :
    ∃ a, DerivesOptional c ts a := by
  rcases h with h | h
  · obtain rfl := map_mem_one.mp h
    exact ⟨_, .omitted⟩
  · obtain ⟨a, ha⟩ := of_mem_accepted h
    exact ⟨a, .expr ts a ha⟩

theorem rule_forLoop_le : rule derived forLoop ≤ derived forLoop := by
  have hfirst : derived varDecls + (1 + derived expression) * sign .semicolon ≤
      accepted fun ts => ∃ a, DerivesFirst ts a := by
    refine le_accepted.mpr fun ts hts => ?_
    simp only [sign, Language.mem_add, map_mem_mul, map_mem_single, map_mem_one] at hts
    rcases hts with hts | ⟨us, _, rfl, rfl | hus, c, rfl, hc⟩
    · obtain ⟨a, ha⟩ := of_mem_accepted hts
      exact ⟨a, .declaration ts a ha⟩
    · exact ⟨_, .omitted c hc⟩
    · obtain ⟨a, ha⟩ := of_mem_accepted hus
      obtain ⟨t, us, rfl, -⟩ := ha.head
      exact ⟨_, .expr t c us a ha hc⟩
  refine le_accepted.mpr fun ts hts => ?_
  simp only [rule, word, map_mem_mul, map_mem_single, map_mem_inParens] at hts
  obtain ⟨_, ws, rfl, ⟨_, _, rfl, ⟨w, rfl, hw⟩, o, _, c, rfl, ho, hts, hc⟩, hws⟩ := hts
  obtain ⟨_, vs, rfl, ⟨_, _, rfl, ⟨ts, us, rfl, hts, hus⟩, hsemi⟩, hvs⟩ := hts
  obtain ⟨z, rfl, hz⟩ := map_mem_single.mp hsemi
  obtain ⟨first, hts⟩ := of_mem_accepted (hfirst hts)
  obtain ⟨a, ha⟩ := derivesOptional_of_mem hus z
  obtain ⟨step, hstep⟩ := derivesOptional_of_mem hvs c
  obtain ⟨body, hbody⟩ := of_mem_accepted hws
  have h := DerivesStmt.forLoop w o z c ts us vs ws first a step body hw ho hts ha hz hstep hc hbody
  simp only [List.append_assoc, List.cons_append, List.nil_append] at h ⊢
  exact ⟨_, h⟩

theorem rule_returnStmt_le : rule derived returnStmt ≤ derived returnStmt := by
  refine le_accepted.mpr fun ts hts => ?_
  simp only [rule, word, sign, Language.mem_add, map_mem_mul, map_mem_single, map_mem_one] at hts
  obtain ⟨_, _, rfl, ⟨_, us, rfl, ⟨w, rfl, hw⟩, rfl | hus⟩, c, rfl, hc⟩ := hts
  · exact ⟨_, .returnNothing w c hw hc⟩
  · obtain ⟨a, ha⟩ := of_mem_accepted hus
    exact ⟨_, .returnValue w c us a hw ha hc⟩

theorem rule_statement_le : rule derived statement ≤ derived statement := by
  refine le_accepted.mpr fun ts hts => ?_
  simp only [rule, sign, Language.mem_add, map_mem_mul, map_mem_single] at hts
  rcases hts with ((((((((hts | hts) | hts) | hts) | hts) | hts) | hts) | hts) | hts) | ⟨us, _,
    rfl, hus, c, rfl, hc⟩
  · obtain ⟨a, ha⟩ := of_mem_accepted hts
    exact ⟨a, .block ts a ha⟩
  iterate 7 exact of_mem_accepted hts
  · obtain ⟨a, ha⟩ := of_mem_accepted hts
    exact ⟨a, .declaration ts a ha⟩
  · obtain ⟨a, ha⟩ := of_mem_accepted hus
    obtain ⟨t, us, rfl, -⟩ := ha.head
    exact ⟨_, .exprStmt t c us a ha hc⟩

theorem rule_arg_le : rule derived arg ≤ derived arg := by
  refine le_accepted.mpr fun ts hts => ?_
  simp only [rule, name, sign, Language.mem_add, map_mem_mul, map_mem_type, map_mem_single,
    map_mem_one] at hts
  obtain ⟨_, _, rfl, ⟨_, _, rfl, ⟨ty, rfl, hty⟩, x, rfl, hx⟩,
    rfl | ⟨_, _, rfl, ⟨o, rfl, ho⟩, c, rfl, hc⟩⟩ := hts
  · exact ⟨_, .plain ty x hty hx⟩
  · exact ⟨_, .array ty x o c hty hx ho hc⟩

theorem rule_function_le : rule derived function ≤ derived function := by
  refine le_accepted.mpr fun ts hts => ?_
  simp only [rule, word, name, map_mem_mul, map_mem_type, map_mem_single, map_mem_inParens] at hts
  obtain ⟨_, us, rfl, ⟨_, _, rfl, ⟨_, _, rfl, ⟨_, _, rfl, ⟨w, rfl, hw⟩, ty, rfl, hty⟩, x, rfl, hx⟩,
    o, ts, c, rfl, ho, hts, hc⟩, hus⟩ := hts
  obtain ⟨body, hbody⟩ := of_mem_accepted hus
  obtain ⟨ps, hps⟩ : ∃ ps, DerivesParameters (ts ++ [c]) ps := by
    rcases hts with hts | hts
    · obtain rfl := map_mem_one.mp hts
      exact ⟨_, .none c hc⟩
    · obtain ⟨ps, hps⟩ := of_mem_accepted (commaList_le (l := derived arg) le_rfl hts)
      exact ⟨ps, .some ts c ps hps hc⟩
  have h := DerivesFunction.mk w ty x o (ts ++ [c]) us ps body hw hty hx ho hps hbody
  simp only [List.append_assoc, List.cons_append, List.nil_append] at h ⊢
  exact ⟨_, h⟩

theorem rule_program_le : rule derived program ≤ derived program := by
  refine kstar_le_of_mul_le_right (le_accepted.mpr fun ts hts => ?_)
    (le_accepted.mpr fun ts hts => ?_)
  · obtain rfl := map_mem_one.mp hts
    exact ⟨[], .nil⟩
  · obtain ⟨us, vs, rfl, hus, hvs⟩ := map_mem_mul.mp hts
    obtain ⟨as, has⟩ := of_mem_accepted hvs
    rcases hus with (hus | hus) | hus
    · obtain ⟨a, ha⟩ := of_mem_accepted hus
      exact ⟨a :: as, .function us vs a as ha has⟩
    · obtain ⟨a, ha⟩ := of_mem_accepted hus
      exact ⟨a :: as, .stmt us vs a as ha has⟩
    · obtain ⟨c, rfl, hc⟩ := map_mem_single.mp hus
      exact ⟨as, .skip c vs as hc has⟩

theorem word_semicolon_le {k : Keyword}
    (h : ∀ w c : Token, w.kind = .keyword k → c.kind = .symbol .semicolon → D [w, c]) :
    word k * sign .semicolon ≤ accepted D := by
  refine le_accepted.mpr fun ts hts => ?_
  simp only [word, sign, map_mem_mul, map_mem_single] at hts
  obtain ⟨_, _, rfl, ⟨w, rfl, hw⟩, c, rfl, hc⟩ := hts
  exact h w c hw hc

/-- **Tokens of generated kinds are derived.** -/
theorem generated_le_derived (p : Phrase) : generated p ≤ derived p := by
  refine generated_le (fun p => ?_) p
  cases p with
  | program => exact rule_program_le
  | function => exact rule_function_le
  | arg => exact rule_arg_le
  | block => exact rule_block_le
  | statement => exact rule_statement_le
  | varDecls => exact rule_varDecls_le
  | var => exact rule_var_le
  | conditional => exact rule_conditional_le
  | whileLoop => exact rule_whileLoop_le
  | doWhile => exact rule_doWhile_le
  | forLoop => exact rule_forLoop_le
  | returnStmt => exact rule_returnStmt_le
  | breakStmt => exact word_semicolon_le fun w c hw hc => ⟨_, .breakStmt w c hw hc⟩
  | continueStmt => exact word_semicolon_le fun w c hw hc => ⟨_, .continueStmt w c hw hc⟩
  | expression => exact rule_expression_le
  | assignment => exact rule_assignment_le
  | target => exact rule_target_le
  | equality => exact chain_le .equality rfl
  | relational => exact chain_le .relational rfl
  | additive => exact chain_le .additive rfl
  | term => exact chain_le .term rfl
  | unary => exact rule_unary_le
  | suffixed => exact rule_suffixed_le
  | primary => exact rule_primary_le

end Phrase

end Stacklet
