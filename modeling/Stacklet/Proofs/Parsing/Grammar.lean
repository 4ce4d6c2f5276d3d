import Stacklet.Proofs.Parsing.Forward
/-!
# The grammar of expressions

* `Precedence`: how tightly expressions are bound, from lists with commas to single tokens in
  parentheses.
* `Derives`: the tokens of an expression of some level, and its tree.
* `Derives.reads`: a derived expression is parsed without errors, unless it goes on behind its last
  token.
-/

namespace Stacklet

open List

variable {rest ts : List Token} {l : Precedence} {s : Symbol} {c o op t : Token} {k : Token.Kind}

/-! ## Levels -/

/-- The levels of expressions, from the loosest to the tightest. -/
inductive Precedence where
  | expression | assignment | equality | relational | additive | term | unary | suffixed | primary
  deriving DecidableEq, Repr

namespace Precedence

variable {l : Precedence}

def rank : Precedence → Nat
  | expression => 0
  | assignment => 1
  | equality => 2
  | relational => 3
  | additive => 4
  | term => 5
  | unary => 6
  | suffixed => 7
  | primary => 8

def next : Precedence → Precedence
  | expression => assignment
  | assignment => equality
  | equality => relational
  | relational => additive
  | additive => term
  | term => unary
  | unary => suffixed
  | suffixed | primary => primary

/-- Whether a level is one of binary operators that group to the left. -/
def isBinary : Precedence → Bool
  | equality | relational | additive | term => true
  | _ => false

/-- The operators of a level of binary operators. -/
def operators : Precedence → List Symbol
  | equality => [.eq, .ne]
  | relational => [.lt, .le, .gt, .ge]
  | additive => [.plus, .minus]
  | term => [.star, .slash, .percent]
  | _ => []

/-- The level of expressions that a sign makes longer. -/
def ofSign? : Symbol → Option Precedence
  | .comma => some expression
  | .assign => some assignment
  | .eq | .ne => some equality
  | .lt | .le | .gt | .ge => some relational
  | .plus | .minus => some additive
  | .star | .slash | .percent => some term
  | .openParen | .openBracket => some suffixed
  | _ => none

/-- Whether an expression of a level may go on with a token of kind `k`. -/
def goesOn (l : Precedence) : Token.Kind → Bool
  | .symbol s => (ofSign? s).any fun l' => l.rank ≤ l'.rank
  | _ => false

def parser (r : Productions) : Precedence → Parser Tree
  | expression => Parser.expression r
  | assignment => Parser.assignment r
  | equality => Parser.equality r
  | relational => Parser.relational r
  | additive => Parser.additive r
  | term => Parser.term r
  | unary => Parser.unary r
  | suffixed => Parser.suffixed r
  | primary => Parser.primary r

theorem rank_le_next (l : Precedence) : l.rank ≤ l.next.rank := by cases l <;> decide

theorem goesOn_next (h : l.goesOn k = false) : l.next.goesOn k = false := by
  cases k with
  | symbol s =>
    unfold goesOn at h ⊢
    rw [Option.any_eq_false] at h ⊢
    intro l' hl'
    have := h l' hl'
    have := l.rank_le_next
    simp only [decide_eq_false_iff_not] at *
    omega
  | _ => rfl

theorem goesOn_ofSign {s : Symbol} (h : ofSign? s = some l) (l' : Precedence) :
    l'.goesOn (.symbol s) = decide (l'.rank ≤ l.rank) := by
  show (ofSign? s).any _ = _
  rw [h]
  rfl

theorem isOneOf_operators (hl : l.isBinary) (k : Token.Kind) :
    Parser.isOneOf l.operators k = true ↔ ∃ s, k = .symbol s ∧ ofSign? s = some l := by
  cases k with
  | symbol s =>
    have hops : s ∈ l.operators ↔ ofSign? s = some l := by
      cases l <;> cases hl <;> cases s <;> decide
    simp [Parser.isOneOf, hops]
  | _ => simp [Parser.isOneOf]

end Precedence

/-! ## Derivations -/

/-- Whether a token is an operator in front of its operand. -/
def Token.isPrefixOp (t : Token) : Bool :=
  t.kind = .symbol .plus ∨ t.kind = .symbol .minus ∨ t.kind = .symbol .bang

mutual

/-- The tokens of an expression of some level, and its tree. -/
inductive Derives : Precedence → List Token → Tree → Prop
  | tighter (l : Precedence) (ts : List Token) (a : Tree) : l ≠ .primary → Derives l.next ts a →
      Derives l ts a
  | comma (ts us : List Token) (c : Token) (a b : Tree) : Derives .assignment ts a →
      c.kind = .symbol .comma →
    Derives .expression us b →
    Derives .expression (ts ++ c :: us) { kind := .comma, text := ",", loc := a.loc,
                                          children := [a, b] }
  | assign (ts us : List Token) (c : Token) (a b : Tree) : Derives .equality ts a →
      Parser.isTarget a.kind →
    c.kind = .symbol .assign → Derives .assignment us b →
    Derives .assignment (ts ++ c :: us) { kind := .assign, text := "=", loc := a.loc,
                                          children := [a, b] }
  | binary (l : Precedence) (ts us : List Token) (op : Token) (s : Symbol) (a b : Tree) :
      l.isBinary → Derives l ts a →
    op.kind = .symbol s → Precedence.ofSign? s = some l → Derives l.next us b →
    Derives l (ts ++ op :: us) { kind := .binary, text := op.text, loc := a.loc,
                                 children := [a, b] }
  | unary (ts : List Token) (op : Token) (a : Tree) : op.isPrefixOp → Derives .unary ts a →
    Derives .unary (op :: ts) { kind := .unary, text := op.text, loc := op.loc, children := [a] }
  | chain (ts : List Token) (a : Tree) : DerivesChain ts a → Derives .suffixed ts a
  | number (t : Token) : t.kind = .number → Derives .primary [t] (Parser.leaf .number t)
  | string (t : Token) : t.kind = .string → Derives .primary [t] (Parser.leaf .string t)
  | name (t : Token) : t.kind = .name → Derives .primary [t] (Parser.leaf .identifier t)
  | parens (ts : List Token) (o c : Token) (a : Tree) : o.kind = .symbol .openParen →
      Derives .expression ts a →
    c.kind = .symbol .closeParen → Derives .primary (o :: (ts ++ [c])) a

/-- The tokens of a name with calls and indices behind it. -/
inductive DerivesChain : List Token → Tree → Prop
  | base (ts : List Token) (a : Tree) : Derives .primary ts a → a.kind = .identifier →
      DerivesChain ts a
  | callNone (ts : List Token) (o c : Token) (f : Tree) : DerivesChain ts f →
      o.kind = .symbol .openParen →
    c.kind = .symbol .closeParen →
    DerivesChain (ts ++ [o, c]) { kind := .call, text := "Call", loc := f.loc, children := [f] }
  | call (ts us : List Token) (o c : Token) (f : Tree) (args : List Tree) : DerivesChain ts f →
    o.kind = .symbol .openParen → DerivesList us args → c.kind = .symbol .closeParen →
    DerivesChain (ts ++ o :: (us ++ [c])) { kind := .call, text := "Call", loc := f.loc,
                                            children := f :: args }
  | index (ts us : List Token) (o c : Token) (a i : Tree) : DerivesChain ts a →
      o.kind = .symbol .openBracket →
    Derives .expression us i → c.kind = .symbol .closeBracket →
    DerivesChain (ts ++ o :: (us ++ [c])) { kind := .index, text := "Index", loc := a.loc,
                                            children := [a, i] }

inductive DerivesList : List Token → List Tree → Prop
  | one (ts : List Token) (a : Tree) : Derives .assignment ts a → DerivesList ts [a]
  | cons (ts us : List Token) (c : Token) (a : Tree) (as : List Tree) : Derives .assignment ts a →
    c.kind = .symbol .comma → DerivesList us as → DerivesList (ts ++ c :: us) (a :: as)

end

/-! ## First tokens -/

/-- Whether a token of this kind may start an expression. -/
def Token.Kind.startsExpr : Token.Kind → Bool
  | .number | .string | .name | .symbol .openParen | .symbol .plus | .symbol .minus
  | .symbol .bang => true
  | _ => false

def Token.Kind.startsPrimary : Token.Kind → Bool
  | .number | .string | .name | .symbol .openParen => true
  | _ => false

theorem Token.Kind.startsExpr_of_startsPrimary (h : k.startsPrimary) : k.startsExpr := by
  unfold startsPrimary at h
  split at h
  all_goals first | rfl | cases h

mutual

theorem Derives.head {l : Precedence} {ts : List Token} {a : Tree} : Derives l ts a →
    ∃ t us, ts = t :: us ∧ t.kind.startsExpr ∧ (6 < l.rank → t.kind.startsPrimary)
  | .tighter l ts a _ h => by
    obtain ⟨t, us, hts, hstart, hprimary⟩ := h.head
    exact ⟨t, us, hts, hstart, fun hl => hprimary (Nat.lt_of_lt_of_le hl l.rank_le_next)⟩
  | .comma ts us c a b h _ _ => by
    obtain ⟨t, us', rfl, hstart, -⟩ := h.head
    exact ⟨t, _, rfl, hstart, fun hl => absurd hl (by decide)⟩
  | .assign ts us c a b h _ _ _ => by
    obtain ⟨t, us', rfl, hstart, -⟩ := h.head
    exact ⟨t, _, rfl, hstart, fun hl => absurd hl (by decide)⟩
  | .binary l ts us op s a b hl h _ _ _ => by
    obtain ⟨t, us', rfl, hstart, hprimary⟩ := h.head
    exact ⟨t, _, rfl, hstart, hprimary⟩
  | .unary ts op a hop _ => by
    refine ⟨op, ts, rfl, ?_, fun hl => absurd hl (by decide)⟩
    rcases of_decide_eq_true hop with hk | hk | hk <;> rw [hk] <;> rfl
  | .chain ts a h => by
    obtain ⟨t, us, hts, hprimary⟩ := h.head
    exact ⟨t, us, hts, Token.Kind.startsExpr_of_startsPrimary hprimary, fun _ => hprimary⟩
  | .number t hk => ⟨t, [], rfl, by rw [hk]; rfl, fun _ => by rw [hk]; rfl⟩
  | .string t hk => ⟨t, [], rfl, by rw [hk]; rfl, fun _ => by rw [hk]; rfl⟩
  | .name t hk => ⟨t, [], rfl, by rw [hk]; rfl, fun _ => by rw [hk]; rfl⟩
  | .parens ts o c a hk _ _ => ⟨o, _, rfl, by rw [hk]; rfl, fun _ => by rw [hk]; rfl⟩

theorem DerivesChain.head {ts : List Token} {a : Tree} : DerivesChain ts a →
    ∃ t us, ts = t :: us ∧ t.kind.startsPrimary
  | .base ts a h _ => by
    obtain ⟨t, us, hts, -, hprimary⟩ := h.head
    exact ⟨t, us, hts, hprimary (by decide)⟩
  | .callNone ts o c f h _ _ => by
    obtain ⟨t, us, rfl, hprimary⟩ := h.head
    exact ⟨t, _, rfl, hprimary⟩
  | .call ts us o c f args h _ _ _ => by
    obtain ⟨t, us', rfl, hprimary⟩ := h.head
    exact ⟨t, _, rfl, hprimary⟩
  | .index ts us o c a i h _ _ _ => by
    obtain ⟨t, us', rfl, hprimary⟩ := h.head
    exact ⟨t, _, rfl, hprimary⟩

end

theorem DerivesList.head {as : List Tree} (h : DerivesList ts as) :
    ∃ t us, ts = t :: us ∧ t.kind.startsExpr := by
  cases h with
  | one _ _ h =>
    obtain ⟨t, us, hts, hstart, -⟩ := h.head
    exact ⟨t, us, hts, hstart⟩
  | cons ts us c a as h _ _ =>
    obtain ⟨t, us', rfl, hstart, -⟩ := h.head
    exact ⟨t, _, rfl, hstart⟩

/-! ## Reading tokens that are known -/

namespace Parser

variable {α β : Type} {e t : Token} {ts rest : List Token}

/-- The state with the tokens `ts` ahead, where `e` stands in for the end, and no errors. -/
def State.ahead (e : Token) (ts : List Token) : State := { rest := ts, fallback := e }

/-- The kind of the next token. -/
def nextKind (e : Token) (ts : List Token) : Token.Kind := (ts.headD e).kind

theorem peekThen_ahead (f : Token → Parser α) :
    (peek >>= f) (.ahead e (t :: ts)) = f t (.ahead e (t :: ts)) := rfl

theorem hereThen_ahead (f : Loc → Parser α) :
    (here >>= f) (.ahead e (t :: ts)) = f t.loc (.ahead e (t :: ts)) := rfl

theorem advanceThen_ahead (f : Token → Parser α) :
    (advance >>= f) (.ahead e (t :: ts)) = f t (.ahead e ts) := rfl

theorem acceptThen_ahead (h : t.kind = k) (x y : Parser α) :
    (accept k >>= fun b => if b = true then x else y) (.ahead e (t :: ts)) = x (.ahead e ts) := by
  have hk : (State.ahead e (t :: ts)).peek.kind = k := h
  rw [bind_of_eq (accept_eq_true hk), if_pos rfl]
  rfl

theorem refuseThen_ahead (h : nextKind e ts ≠ k) (x y : Parser α) :
    (accept k >>= fun b => if b = true then x else y) (.ahead e ts) = y (.ahead e ts) := by
  have hk : (State.ahead e ts).peek.kind ≠ k := h
  rw [bind_of_eq (accept_eq_false hk), if_neg Bool.false_ne_true]

theorem expect_ahead (h : t.kind = k) (w : Wanted) :
    expect k w (.ahead e (t :: ts)) = (t, .ahead e ts) := by
  show (if t.kind = k then advance else _ : Parser Token) _ = _
  rw [if_pos h]
  rfl

theorem expectSignThen_ahead {c : Symbol} (h : t.kind = .symbol c) (w : Wanted) (x : Parser α) :
    (expectSign c w >>= fun _ => x) (.ahead e (t :: ts)) = x (.ahead e ts) := by
  have hsign : expectSign c w (.ahead e (t :: ts)) = ((), .ahead e ts) :=
    congrArg (fun r : Token × State => ((), r.2)) (expect_ahead h w)
  rw [bind_of_eq hsign]

theorem expectWordThen_ahead {k : Keyword} (h : t.kind = .keyword k) (w : Wanted) (x : Parser α) :
    (expectWord k w >>= fun _ => x) (.ahead e (t :: ts)) = x (.ahead e ts) := by
  have hword : expectWord k w (.ahead e (t :: ts)) = ((), .ahead e ts) :=
    congrArg (fun r : Token × State => ((), r.2)) (expect_ahead h w)
  rw [bind_of_eq hword]

section Lists

variable {item : Parser Tree} {s : State} {a : Tree}

theorem commaSeparated_one (h : item s = (a, .ahead e rest))
    (hstop : nextKind e rest ≠ .symbol .comma) (m : Nat) :
    commaSeparated m item s = ([a], .ahead e rest) := by
  have htail : commaTail item (m + 1) (.ahead e rest) = ([], .ahead e rest) :=
    refuseThen_ahead hstop _ _
  rw [commaSeparated, bind_of_eq h, bind_of_eq htail]
  rfl

theorem commaSeparated_cons {as : List Tree} {s' : State} {m : Nat}
    (h : item s = (a, .ahead e (c :: rest))) (hc : c.kind = .symbol .comma)
    (hmore : commaSeparated m item (.ahead e rest) = (as, s')) :
    commaSeparated (m + 1) item s = (a :: as, s') := by
  have htail : commaTail item (m + 2) (.ahead e (c :: rest)) = (as, s') := by
    rw [commaTail, acceptThen_ahead hc]
    exact hmore
  rw [commaSeparated, bind_of_eq h, bind_of_eq htail]
  rfl

end Lists

end Parser

open Stacklet.Parser

variable {e : Token}

/-- Where an expression of level `l` does not go on. -/
def Precedence.Stops (e : Token) (l : Precedence) (rest : List Token) : Prop :=
  l.goesOn (nextKind e rest) = false

theorem Precedence.Stops.next (h : l.Stops e rest) : l.next.Stops e rest := goesOn_next h

theorem Precedence.stops_of_sign {l' : Precedence} (hk : t.kind = .symbol s)
    (hs : ofSign? s = some l') (h : l'.rank < l.rank) (rest : List Token) :
    l.Stops e (t :: rest) := by
  show l.goesOn t.kind = false
  rw [hk, goesOn_ofSign hs]
  exact decide_eq_false (Nat.not_le_of_lt h)

theorem Precedence.stops_of_none (l : Precedence) (hk : t.kind = .symbol s) (hs : ofSign? s = none)
    (rest : List Token) : l.Stops e (t :: rest) := by
  show l.goesOn t.kind = false
  rw [hk]
  show (ofSign? s).any _ = false
  rw [hs]
  rfl

theorem Precedence.Stops.ne_sign {l' : Precedence} (h : l.Stops e rest) (hs : ofSign? s = some l')
    (hl : l.rank ≤ l'.rank) : nextKind e rest ≠ .symbol s := by
  intro hk
  unfold Precedence.Stops at h
  rw [hk, goesOn_ofSign hs, decide_eq_false_iff_not] at h
  exact h hl

theorem suffixes_stop (h : Precedence.suffixed.Stops e rest) (r : Productions) (m : Nat)
    (a : Tree) :
    suffixes r (m + 1) a (.ahead e rest) = (a, .ahead e rest) := by
  unfold suffixes
  rw [refuseThen_ahead (h.ne_sign rfl (Nat.le_refl _)),
    refuseThen_ahead (h.ne_sign rfl (Nat.le_refl _))]
  rfl

theorem operatorTail_stop (hl : l.isBinary) (h : l.Stops e rest) (operand : Parser Tree) (m : Nat)
    (a : Tree) :
    operatorTail l.operators operand (m + 1) a (.ahead e rest) = (a, .ahead e rest) := by
  have hnone : ¬isOneOf l.operators (State.ahead e rest).peek.kind := by
    rw [Precedence.isOneOf_operators hl]
    rintro ⟨s, hk, hs⟩
    exact h.ne_sign hs (Nat.le_refl _) hk
  show (if isOneOf l.operators (State.ahead e rest).peek.kind then _ else _ : Parser Tree) _ = _
  rw [if_neg hnone]
  rfl

theorem operatorTail_step (hl : l.isBinary) (hk : op.kind = .symbol s)
    (hs : Precedence.ofSign? s = some l) {operand : Parser Tree} {us : List Token} {b : Tree}
    (hb : operand (.ahead e (us ++ rest)) = (b, .ahead e rest)) (m : Nat) (a : Tree) :
    operatorTail l.operators operand (m + 1) a (.ahead e (op :: (us ++ rest))) =
      operatorTail l.operators operand m ⟨.binary, op.text, false, a.loc, [a, b]⟩
        (.ahead e rest) := by
  rw [operatorTail, peekThen_ahead, if_pos ((Precedence.isOneOf_operators hl _).mpr ⟨s, hk, hs⟩),
    advanceThen_ahead, bind_of_eq hb]

theorem parser_of_isBinary (hl : l.isBinary) (r : Productions) :
    l.parser r = operatorLevel r l.operators (l.next.parser r) := by
  cases l <;> cases hl <;> rfl

theorem unary_of_startsPrimary (h : t.kind.startsPrimary) (r : Productions) :
    Parser.unary r (.ahead e (t :: ts)) = suffixed r (.ahead e (t :: ts)) := by
  unfold Parser.unary
  rw [peekThen_ahead]
  generalize t.kind = k at h
  match k, h with
  | .number, _ => rfl
  | .string, _ => rfl
  | .name, _ => rfl
  | .symbol .openParen, _ => rfl

/-- An expression that is read as it is derived. If its level is one of binary operators, then more
of them may follow. -/
structure Complete (e : Token) (l : Precedence) (ts : List Token) (a : Tree) : Prop where
  reads : ∀ (n : Nat) (rest : List Token), (ts ++ rest).length ≤ n → l.Stops e rest →
    l.parser (.upTo n) (.ahead e (ts ++ rest)) = (a, .ahead e rest)
  tail : l.isBinary → ∀ (n : Nat) (rest : List Token), (ts ++ rest).length ≤ n →
    l.next.Stops e rest →
    ∃ m, rest.length ≤ m ∧ l.parser (.upTo n) (.ahead e (ts ++ rest)) =
      operatorTail l.operators (l.next.parser (.upTo n)) (m + 1) a (.ahead e rest)

/-- A chain that is read as it is derived, and more calls and indices may follow. -/
def CompleteChain (e : Token) (ts : List Token) (a : Tree) : Prop :=
  ∀ (n : Nat) (rest : List Token), (ts ++ rest).length ≤ n →
    ∃ m, rest.length ≤ m ∧ suffixed (.upTo n) (.ahead e (ts ++ rest)) =
      suffixes (.upTo n) (m + 1) a (.ahead e rest)

def CompleteList (e : Token) (ts : List Token) (as : List Tree) : Prop :=
  ∀ (n m : Nat) (rest : List Token), (ts ++ rest).length ≤ n → (ts ++ rest).length ≤ m →
    Precedence.expression.Stops e rest →
    commaSeparated m (assignment (.upTo n)) (.ahead e (ts ++ rest)) = (as, .ahead e rest)

namespace Complete

variable {l : Precedence} {ts us rest : List Token} {a b : Tree}

theorem of_tail (hl : l.isBinary)
    (h : ∀ (n : Nat) (rest : List Token), (ts ++ rest).length ≤ n → l.next.Stops e rest →
      ∃ m, rest.length ≤ m ∧ l.parser (.upTo n) (.ahead e (ts ++ rest)) =
        operatorTail l.operators (l.next.parser (.upTo n)) (m + 1) a (.ahead e rest)) :
        Complete e l ts a := by
  refine ⟨fun n rest hn hstop => ?_, fun _ => h⟩
  obtain ⟨m, -, hm⟩ := h n rest hn hstop.next
  rw [hm, operatorTail_stop hl hstop]

theorem of_reads (hl : l.isBinary = false)
    (h : ∀ (n : Nat) (rest : List Token), (ts ++ rest).length ≤ n → l.Stops e rest →
      l.parser (.upTo n) (.ahead e (ts ++ rest)) = (a, .ahead e rest)) : Complete e l ts a :=
  ⟨h, fun h => absurd h (by rw [hl]; exact Bool.false_ne_true)⟩

theorem operand (hl : l.isBinary) (h : Complete e l.next ts a) : Complete e l ts a := by
  refine of_tail hl fun n rest hn hstop => ⟨n, ?_, ?_⟩
  · rw [length_append] at hn
    omega
  · rw [parser_of_isBinary hl, operatorLevel, bind_of_eq (h.reads n rest hn hstop),
      Productions.bound_upTo]

theorem binary {s : Symbol} (hl : l.isBinary) (ha : Complete e l ts a) (hk : op.kind = .symbol s)
    (hs : Precedence.ofSign? s = some l) (hb : Complete e l.next us b) :
    Complete e l (ts ++ op :: us) ⟨.binary, op.text, false, a.loc, [a, b]⟩ := by
  refine of_tail hl fun n rest hn hstop => ?_
  rw [append_assoc, cons_append] at hn ⊢
  have hlen : (us ++ rest).length ≤ n := by
    rw [length_append, length_cons] at hn
    omega
  have hnext : l.rank < l.next.rank := by cases l <;> first | decide | cases hl
  obtain ⟨m, hm, heq⟩ := ha.tail hl n _ hn (Precedence.stops_of_sign hk hs hnext _)
  obtain _ | m := m
  · simp at hm
  refine ⟨m, ?_, ?_⟩
  · rw [length_cons, length_append] at hm
    omega
  · rw [heq, operatorTail_step hl hk hs (hb.reads n rest hlen hstop)]

theorem tighter (hl : l ≠ .primary) (h : Complete e l.next ts a) (hd : Derives l.next ts a) :
    Complete e l ts a := by
  cases l with
  | equality | relational | additive | term => exact operand rfl h
  | primary => exact absurd rfl hl
  | expression =>
    refine of_reads rfl fun n rest hn hstop => ?_
    have hread : Parser.assignment (.upTo n) (.ahead e (ts ++ rest)) = (a, .ahead e rest) :=
      h.reads n rest hn hstop.next
    show Parser.expression (.upTo n) _ = _
    unfold Parser.expression
    rw [bind_of_eq hread, refuseThen_ahead (hstop.ne_sign rfl (Nat.le_refl _))]
    rfl
  | assignment =>
    refine of_reads rfl fun n rest hn hstop => ?_
    have hread : Parser.equality (.upTo n) (.ahead e (ts ++ rest)) = (a, .ahead e rest) :=
      h.reads n rest hn hstop.next
    show Parser.assignment (.upTo n) _ = _
    unfold Parser.assignment
    rw [bind_of_eq hread, refuseThen_ahead (hstop.ne_sign rfl (Nat.le_refl _))]
    rfl
  | unary =>
    refine of_reads rfl fun n rest hn hstop => ?_
    obtain ⟨t, us, rfl, -, hprimary⟩ := hd.head
    have hread : Parser.suffixed (.upTo n) (.ahead e (t :: (us ++ rest))) = (a, .ahead e rest) :=
      h.reads n rest hn hstop.next
    exact (unary_of_startsPrimary (hprimary (by decide)) _).trans hread
  | suffixed =>
    refine of_reads rfl fun n rest hn hstop => ?_
    have hread : Parser.primary (.upTo n) (.ahead e (ts ++ rest)) = (a, .ahead e rest) :=
      h.reads n rest hn hstop.next
    show Parser.suffixed (.upTo n) _ = _
    unfold Parser.suffixed
    rw [bind_of_eq hread]
    by_cases hk : a.kind = .identifier
    · rw [if_pos hk, suffixes_stop hstop]
    · rw [if_neg hk]
      rfl

theorem comma (ha : Complete e .assignment ts a) (hc : c.kind = .symbol .comma)
    (hb : Complete e .expression us b) :
    Complete e .expression (ts ++ c :: us) { kind := .comma, text := ",", loc := a.loc,
                                             children := [a, b] } := by
  refine of_reads rfl fun n rest hn hstop => ?_
  rw [append_assoc, cons_append] at hn ⊢
  obtain _ | n := n
  · simp at hn
  have hleft : Parser.assignment (.upTo (n + 1)) (.ahead e (ts ++ c :: (us ++ rest))) =
      (a, .ahead e (c :: (us ++ rest))) :=
    ha.reads (n + 1) _ hn (Precedence.stops_of_sign hc rfl (by decide) _)
  have hright : Parser.expression (.upTo n) (.ahead e (us ++ rest)) = (b, .ahead e rest) :=
    hb.reads n rest (by grind) hstop
  show Parser.expression (.upTo (n + 1)) _ = _
  rw [Parser.expression, bind_of_eq hleft, acceptThen_ahead hc]
  exact bind_of_eq hright _

theorem assign (ha : Complete e .equality ts a) (htarget : isTarget a.kind)
    (hc : c.kind = .symbol .assign) (hb : Complete e .assignment us b) :
    Complete e .assignment (ts ++ c :: us) ⟨.assign, "=", false, a.loc, [a, b]⟩ := by
  refine of_reads rfl fun n rest hn hstop => ?_
  rw [append_assoc, cons_append] at hn ⊢
  obtain _ | n := n
  · simp at hn
  have hleft : Parser.equality (.upTo (n + 1)) (.ahead e (ts ++ c :: (us ++ rest))) =
      (a, .ahead e (c :: (us ++ rest))) :=
    ha.reads (n + 1) _ hn (Precedence.stops_of_sign hc rfl (by decide) _)
  have hright : Parser.assignment (.upTo n) (.ahead e (us ++ rest)) = (b, .ahead e rest) :=
    hb.reads n rest (by grind) hstop
  show Parser.assignment (.upTo (n + 1)) _ = _
  rw [Parser.assignment, bind_of_eq hleft, acceptThen_ahead hc]
  dsimp only
  rw [if_pos htarget]
  exact bind_of_eq hright _

theorem unary (hop : op.isPrefixOp) (ha : Complete e .unary ts a) :
    Complete e .unary (op :: ts) ⟨.unary, op.text, false, op.loc, [a]⟩ := by
  refine of_reads rfl fun n rest hn hstop => ?_
  rw [cons_append] at hn ⊢
  obtain _ | n := n
  · simp at hn
  have hread : Parser.unary (.upTo n) (.ahead e (ts ++ rest)) = (a, .ahead e rest) :=
    ha.reads n rest (by grind) hstop
  show Parser.unary (.upTo (n + 1)) _ = _
  unfold Parser.unary
  rw [peekThen_ahead]
  rcases of_decide_eq_true hop with hk | hk | hk
  all_goals
    rw [hk]
    dsimp only
    rw [advanceThen_ahead]
    exact bind_of_eq hread _

theorem parens (ho : o.kind = .symbol .openParen) (ha : Complete e .expression ts a)
    (hc : c.kind = .symbol .closeParen) : Complete e .primary (o :: (ts ++ [c])) a := by
  refine of_reads rfl fun n rest hn hstop => ?_
  rw [cons_append, append_assoc, singleton_append] at hn ⊢
  obtain _ | n := n
  · simp at hn
  have hread : Parser.expression (.upTo n) (.ahead e (ts ++ c :: rest)) =
      (a, .ahead e (c :: rest)) :=
    ha.reads n _ (by grind) (Precedence.stops_of_none _ hc rfl _)
  show Parser.primary (.upTo (n + 1)) _ = _
  unfold Parser.primary
  rw [peekThen_ahead, ho]
  dsimp only
  rw [advanceThen_ahead]
  refine (bind_of_eq hread _).trans ?_
  rw [expectSignThen_ahead hc]
  rfl

theorem leaf {kind : Tree.Kind}
    (h : ∀ r rest, Parser.primary r (.ahead e (t :: rest)) = (Parser.leaf kind t, .ahead e rest)) :
    Complete e .primary [t] (Parser.leaf kind t) :=
  of_reads rfl fun n rest _ _ => h (.upTo n) rest

theorem chain (h : CompleteChain e ts a) : Complete e .suffixed ts a := by
  refine of_reads rfl fun n rest hn hstop => ?_
  obtain ⟨m, -, hm⟩ := h n rest hn
  exact hm.trans (suffixes_stop hstop _ m a)

end Complete

namespace CompleteChain

variable {ts us rest : List Token} {a b : Tree}

theorem base (h : Complete e .primary ts a) (hk : a.kind = .identifier) : CompleteChain e ts a := by
  intro n rest hn
  have hstop : Precedence.primary.Stops e rest := by
    unfold Precedence.Stops
    match nextKind e rest with
    | .symbol s => cases s <;> rfl
    | .keyword _ | .name | .number | .string | .endOfInput | .unknown => rfl
  have hread : Parser.primary (.upTo n) (.ahead e (ts ++ rest)) = (a, .ahead e rest) :=
    h.reads n rest hn hstop
  refine ⟨n, by simp at hn; omega, ?_⟩
  rw [suffixed, bind_of_eq hread, if_pos hk, Productions.bound_upTo]

theorem step (ha : CompleteChain e ts a)
    (h : ∀ (n m : Nat) (rest : List Token), (us ++ rest).length < n →
      suffixes (.upTo n) (m + 1) a (.ahead e (o :: (us ++ rest))) = suffixes (.upTo n) m b
      (.ahead e rest)) :
    CompleteChain e (ts ++ o :: us) b := by
  intro n rest hn
  rw [append_assoc, cons_append] at hn ⊢
  obtain ⟨m, hm, heq⟩ := ha n _ hn
  obtain _ | m := m
  · simp at hm
  refine ⟨m, by simp at hm; omega, ?_⟩
  rw [heq, h n (m + 1) rest (by grind)]

theorem callNone (ha : CompleteChain e ts a) (ho : o.kind = .symbol .openParen)
    (hc : c.kind = .symbol .closeParen) :
    CompleteChain e (ts ++ [o, c]) ⟨.call, "Call", false, a.loc, [a]⟩ := by
  refine ha.step fun n m rest _ => ?_
  rw [suffixes, acceptThen_ahead ho]
  have hargs : arguments (.upTo n) (.ahead e (c :: rest)) = ([], .ahead e rest) :=
    acceptThen_ahead hc _ _
  exact bind_of_eq hargs _

theorem call {args : List Tree} (ha : CompleteChain e ts a) (ho : o.kind = .symbol .openParen)
    (hargs : CompleteList e us args) (hd : DerivesList us args)
    (hc : c.kind = .symbol .closeParen) :
    CompleteChain e (ts ++ o :: (us ++ [c])) ⟨.call, "Call", false, a.loc, a :: args⟩ := by
  refine ha.step fun n m rest hn => ?_
  rw [append_assoc, singleton_append] at hn ⊢
  obtain _ | n := n
  · omega
  have hlist := hargs n (n + 1) (c :: rest) (by omega) (by omega)
    (Precedence.stops_of_none _ hc rfl _)
  have hread : arguments (.upTo (n + 1)) (.ahead e (us ++ c :: rest)) = (args, .ahead e rest) := by
    obtain ⟨t, us', rfl, hstart⟩ := hd.head
    have hclose : nextKind e (t :: us' ++ c :: rest) ≠ .symbol .closeParen := by
      intro hk
      rw [show t.kind = .symbol .closeParen from hk] at hstart
      cases hstart
    rw [arguments, refuseThen_ahead hclose, Productions.bound_upTo]
    refine (bind_of_eq hlist _).trans ?_
    rw [expectSignThen_ahead hc]
    rfl
  rw [suffixes, acceptThen_ahead ho]
  exact bind_of_eq hread _

theorem index {i : Tree} (ha : CompleteChain e ts a) (ho : o.kind = .symbol .openBracket)
    (hi : Complete e .expression us i) (hc : c.kind = .symbol .closeBracket) :
    CompleteChain e (ts ++ o :: (us ++ [c])) ⟨.index, "Index", false, a.loc, [a, i]⟩ := by
  refine ha.step fun n m rest hn => ?_
  rw [append_assoc, singleton_append] at hn ⊢
  obtain _ | n := n
  · omega
  have hread : Parser.expression (.upTo n) (.ahead e (us ++ c :: rest)) =
      (i, .ahead e (c :: rest)) :=
    hi.reads n _ (by omega) (Precedence.stops_of_none _ hc rfl _)
  have hopen : nextKind e (o :: (us ++ c :: rest)) ≠ .symbol .openParen := by
    intro hk
    rw [show nextKind e (o :: (us ++ c :: rest)) = o.kind from rfl, ho] at hk
    cases hk
  rw [suffixes, refuseThen_ahead hopen, acceptThen_ahead ho]
  refine (bind_of_eq hread _).trans ?_
  rw [expectSignThen_ahead hc]

end CompleteChain

namespace CompleteList

variable {ts us : List Token} {a : Tree} {as : List Tree}

theorem one (h : Complete e .assignment ts a) : CompleteList e ts [a] := by
  intro n m rest hn _ hstop
  have hread : assignment (.upTo n) (.ahead e (ts ++ rest)) = (a, .ahead e rest) :=
    h.reads n rest hn hstop.next
  exact commaSeparated_one hread (hstop.ne_sign rfl (Nat.le_refl _)) m

theorem cons (ha : Complete e .assignment ts a) (hc : c.kind = .symbol .comma)
    (has : CompleteList e us as) :
    CompleteList e (ts ++ c :: us) (a :: as) := by
  intro n m rest hn hm hstop
  rw [append_assoc, cons_append] at hn hm ⊢
  obtain _ | m := m
  · simp at hm
  have hread : assignment (.upTo n) (.ahead e (ts ++ c :: (us ++ rest))) =
      (a, .ahead e (c :: (us ++ rest))) :=
    ha.reads n _ hn (Precedence.stops_of_sign hc rfl (by decide) _)
  exact commaSeparated_cons hread hc (has n m rest (by grind) (by grind) hstop)

end CompleteList

mutual

theorem Derives.complete {l : Precedence} {ts : List Token} {a : Tree} :
    Derives l ts a → Complete e l ts a
  | .tighter _ _ _ hl h => h.complete.tighter hl h
  | .comma _ _ _ _ _ ha hc hb => ha.complete.comma hc hb.complete
  | .assign _ _ _ _ _ ha ht hc hb => ha.complete.assign ht hc hb.complete
  | .binary _ _ _ _ _ _ _ hl ha hk hs hb => .binary hl ha.complete hk hs hb.complete
  | .unary _ _ _ hop ha => .unary hop ha.complete
  | .chain _ _ h => .chain h.complete
  | .number t hk => .leaf fun r rest => by rw [Parser.primary, peekThen_ahead, hk]; rfl
  | .string t hk => .leaf fun r rest => by rw [Parser.primary, peekThen_ahead, hk]; rfl
  | .name t hk => .leaf fun r rest => by rw [Parser.primary, peekThen_ahead, hk]; rfl
  | .parens _ _ _ _ ho ha hc => .parens ho ha.complete hc

theorem DerivesChain.complete {ts : List Token} {a : Tree} :
    DerivesChain ts a → CompleteChain e ts a
  | .base _ _ h hk => .base h.complete hk
  | .callNone _ _ _ _ hf ho hc => hf.complete.callNone ho hc
  | .call _ _ _ _ _ _ hf ho hargs hc => hf.complete.call ho hargs.complete hargs hc
  | .index _ _ _ _ _ _ ha ho hi hc => ha.complete.index ho hi.complete hc

theorem DerivesList.complete {ts : List Token} {as : List Tree} :
    DerivesList ts as → CompleteList e ts as
  | .one _ _ h => .one h.complete
  | .cons _ _ _ _ _ ha hc has => .cons ha.complete hc has.complete

end

/-- **A derived expression is read** without errors, up to its last token. -/
theorem Derives.reads {a : Tree} (h : Derives l ts a) {n : Nat}
    (hn : (ts ++ rest).length ≤ n) (hstop : l.Stops e rest) :
    l.parser (.upTo n) (.ahead e (ts ++ rest)) = (a, .ahead e rest) :=
  h.complete.reads n rest hn hstop

end Stacklet
