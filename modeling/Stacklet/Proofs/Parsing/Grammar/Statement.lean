import Stacklet.Proofs.Parsing.Grammar
/-!
# The grammar of statements and programs

* `DerivesStmt`, `DerivesFunction`, `DerivesItems`: the tokens of a statement, a function and a
  program, and their trees.
* `DerivesStmt.reads`: a derived statement is parsed without errors, unless an `else` follows.
* `DerivesItems.program`: a derived program is parsed without errors.
-/

namespace Stacklet

open Stacklet.Parser List

variable {m : Nat} {c o w : Token} {k : Token.Kind}

/-! ## Derivations -/

/-- Items with commas between them. -/
inductive Separated (D : List Token → Tree → Prop) : List Token → List Tree → Prop
  | one (ts : List Token) (a : Tree) : D ts a → Separated D ts [a]
  | cons (ts us : List Token) (c : Token) (a : Tree) (as : List Tree) : D ts a →
      c.kind = .symbol .comma →
    Separated D us as → Separated D (ts ++ c :: us) (a :: as)

inductive DerivesDeclarator : List Token → Tree → Prop
  | plain (x : Token) : x.kind = .name →
      DerivesDeclarator [x] { kind := .declarator, text := x.text, loc := x.loc }
  | initial (x c : Token) (ts : List Token) (a : Tree) : x.kind = .name → c.kind = .symbol .assign →
    Derives .assignment ts a →
    DerivesDeclarator (x :: c :: ts) { kind := .declarator, text := x.text, loc := x.loc,
                                       children := [a] }
  | array (x o c : Token) (ts : List Token) (a : Tree) : x.kind = .name →
      o.kind = .symbol .openBracket →
    Derives .expression ts a → c.kind = .symbol .closeBracket →
    DerivesDeclarator (x :: o :: (ts ++ [c]))
      { kind := .declarator, text := x.text, isArray := true, loc := x.loc, children := [a] }

inductive DerivesDeclaration : List Token → Tree → Prop
  | mk (ty c : Token) (ts : List Token) (ds : List Tree) : ty.kind.isType →
      Separated DerivesDeclarator ts ds →
    c.kind = .symbol .semicolon → DerivesDeclaration (ty :: (ts ++ [c]))
      { kind := .declaration, text := "VarDeclList", loc := ty.loc,
        children := leaf .typeName ty :: ds }

/-- The tokens of the first part of the header of a `for` loop. -/
inductive DerivesFirst : List Token → Tree → Prop
  | omitted (c : Token) : c.kind = .symbol .semicolon → DerivesFirst [c] (.omitted c.loc)
  | declaration (ts : List Token) (a : Tree) : DerivesDeclaration ts a → DerivesFirst ts a
  | expr (t c : Token) (ts : List Token) (a : Tree) : Derives .expression (t :: ts) a →
      c.kind = .symbol .semicolon →
    DerivesFirst (t :: (ts ++ [c])) { kind := .exprStmt, text := "ExprStmt", loc := t.loc,
                                      children := [a] }

/-- The tokens of an expression that may be left out before the token `c`. -/
inductive DerivesOptional (c : Token) : List Token → Tree → Prop
  | omitted : DerivesOptional c [] (.omitted c.loc)
  | expr (ts : List Token) (a : Tree) : Derives .expression ts a → DerivesOptional c ts a

mutual

/-- The tokens of a statement. -/
inductive DerivesStmt : List Token → Tree → Prop
  | block (ts : List Token) (a : Tree) : DerivesBlock ts a → DerivesStmt ts a
  | declaration (ts : List Token) (a : Tree) : DerivesDeclaration ts a → DerivesStmt ts a
  | exprStmt (t c : Token) (ts : List Token) (a : Tree) : Derives .expression (t :: ts) a →
      c.kind = .symbol .semicolon →
    DerivesStmt (t :: (ts ++ [c])) { kind := .exprStmt, text := "ExprStmt", loc := t.loc,
                                     children := [a] }
  | returnNothing (w c : Token) : w.kind = .keyword .returnKw → c.kind = .symbol .semicolon →
    DerivesStmt [w, c] { kind := .returnStmt, text := "Return", loc := w.loc }
  | returnValue (w c : Token) (ts : List Token) (a : Tree) : w.kind = .keyword .returnKw →
      Derives .expression ts a →
    c.kind = .symbol .semicolon →
    DerivesStmt (w :: (ts ++ [c])) { kind := .returnStmt, text := "Return", loc := w.loc,
                                     children := [a] }
  | breakStmt (w c : Token) : w.kind = .keyword .breakKw → c.kind = .symbol .semicolon →
    DerivesStmt [w, c] { kind := .breakStmt, text := "Break", loc := w.loc }
  | continueStmt (w c : Token) : w.kind = .keyword .continueKw → c.kind = .symbol .semicolon →
    DerivesStmt [w, c] { kind := .continueStmt, text := "Continue", loc := w.loc }
  | conditional (w o c : Token) (ts us vs : List Token) (a body : Tree) (branches : List Tree) :
      w.kind = .keyword .ifKw →
    o.kind = .symbol .openParen → Derives .expression ts a → c.kind = .symbol .closeParen →
      DerivesBlock us body →
    DerivesBranches vs branches → DerivesStmt (w :: o :: (ts ++ c :: (us ++ vs)))
      { kind := .conditional, text := "If", loc := w.loc, children := a :: body :: branches }
  | whileLoop (w o c : Token) (ts us : List Token) (a body : Tree) : w.kind = .keyword .whileKw →
    o.kind = .symbol .openParen → Derives .expression ts a → c.kind = .symbol .closeParen →
      DerivesBlock us body →
    DerivesStmt (w :: o :: (ts ++ c :: us)) { kind := .whileLoop, text := "While", loc := w.loc,
                                              children := [a, body] }
  | doWhile (w v o c z : Token) (ts us : List Token) (body a : Tree) : w.kind = .keyword .doKw →
      DerivesBlock us body →
    v.kind = .keyword .whileKw → o.kind = .symbol .openParen → Derives .expression ts a →
      c.kind = .symbol .closeParen →
    z.kind = .symbol .semicolon → DerivesStmt (w :: (us ++ v :: o :: (ts ++ [c, z])))
      { kind := .doWhile, text := "DoWhile", loc := w.loc, children := [body, a] }
  | forLoop (w o z c : Token) (ts us vs ws : List Token) (first a step body : Tree) :
      w.kind = .keyword .forKw →
    o.kind = .symbol .openParen → DerivesFirst ts first → DerivesOptional z us a →
      z.kind = .symbol .semicolon →
    DerivesOptional c vs step → c.kind = .symbol .closeParen → DerivesBlock ws body →
    DerivesStmt (w :: o :: (ts ++ (us ++ z :: (vs ++ c :: ws))))
      { kind := .forLoop, text := "For", loc := w.loc, children := [first, a, step, body] }

inductive DerivesBlock : List Token → Tree → Prop
  | mk (o c : Token) (ts : List Token) (as : List Tree) : o.kind = .symbol .openBrace →
      DerivesStmts ts as →
    c.kind = .symbol .closeBrace →
    DerivesBlock (o :: (ts ++ [c]))
      { kind := .block, text := "Block", loc := o.loc, children := as }

inductive DerivesStmts : List Token → List Tree → Prop
  | nil : DerivesStmts [] []
  | skip (c : Token) (ts : List Token) (as : List Tree) : c.kind = .symbol .semicolon →
      DerivesStmts ts as →
    DerivesStmts (c :: ts) as
  | cons (ts us : List Token) (a : Tree) (as : List Tree) : DerivesStmt ts a → DerivesStmts us as →
    DerivesStmts (ts ++ us) (a :: as)

/-- The tokens of what stands behind the first block of a conditional. -/
inductive DerivesBranches : List Token → List Tree → Prop
  | nil : DerivesBranches [] []
  | last (w : Token) (ts : List Token) (body : Tree) : w.kind = .keyword .elseKw →
      DerivesBlock ts body →
    DerivesBranches (w :: ts) [body]
  | elseIf (w v o c : Token) (ts us vs : List Token) (a body : Tree) (branches : List Tree) :
      w.kind = .keyword .elseKw →
    v.kind = .keyword .ifKw → o.kind = .symbol .openParen → Derives .expression ts a →
      c.kind = .symbol .closeParen →
    DerivesBlock us body → DerivesBranches vs branches →
      DerivesBranches (w :: v :: o :: (ts ++ c :: (us ++ vs)))
      ({ kind := .elseIf, text := "ElseIf", loc := w.loc, children := [a, body] } :: branches)

end

inductive DerivesParameter : List Token → Tree → Prop
  | plain (ty x : Token) : ty.kind.isType → x.kind = .name →
    DerivesParameter [ty, x] { kind := .parameter, text := x.text, loc := ty.loc,
                               children := [leaf .typeName ty] }
  | array (ty x o c : Token) : ty.kind.isType → x.kind = .name → o.kind = .symbol .openBracket →
    c.kind = .symbol .closeBracket → DerivesParameter [ty, x, o, c]
      { kind := .parameter, text := x.text, isArray := true, loc := ty.loc,
        children := [leaf .typeName ty] }

/-- The tokens of the parameters of a function, with the parenthesis behind them. -/
inductive DerivesParameters : List Token → List Tree → Prop
  | none (c : Token) : c.kind = .symbol .closeParen → DerivesParameters [c] []
  | some (ts : List Token) (c : Token) (ps : List Tree) : Separated DerivesParameter ts ps →
    c.kind = .symbol .closeParen → DerivesParameters (ts ++ [c]) ps

inductive DerivesFunction : List Token → Tree → Prop
  | mk (w ty x o : Token) (ts us : List Token) (ps : List Tree) (body : Tree) :
      w.kind = .keyword .fnKw → ty.kind.isType →
    x.kind = .name → o.kind = .symbol .openParen → DerivesParameters ts ps → DerivesBlock us body →
    DerivesFunction (w :: ty :: x :: o :: (ts ++ us))
      { kind := .function, text := x.text, loc := w.loc,
        children := leaf .typeName ty :: (ps ++ [body]) }

inductive DerivesItems : List Token → List Tree → Prop
  | nil : DerivesItems [] []
  | skip (c : Token) (ts : List Token) (as : List Tree) : c.kind = .symbol .semicolon →
      DerivesItems ts as →
    DerivesItems (c :: ts) as
  | function (ts us : List Token) (a : Tree) (as : List Tree) : DerivesFunction ts a →
      DerivesItems us as →
    DerivesItems (ts ++ us) (a :: as)
  | stmt (ts us : List Token) (a : Tree) (as : List Tree) : DerivesStmt ts a → DerivesItems us as →
    DerivesItems (ts ++ us) (a :: as)

/-! ## First tokens of statements -/

/-- Whether a token of this kind may start a statement. -/
def Token.Kind.startsStmt : Token.Kind → Bool
  | .symbol .openBrace => true
  | .keyword .elseKw | .keyword .fnKw => false
  | .keyword _ => true
  | k => k.startsExpr

theorem DerivesBlock.head (h : DerivesBlock ts a) :
    ∃ o us, ts = o :: us ∧ o.kind = .symbol .openBrace := by
  obtain ⟨o, c, ts, as, ho, -, -⟩ := h
  exact ⟨o, _, rfl, ho⟩

theorem DerivesDeclaration.head (h : DerivesDeclaration ts a) :
    ∃ ty us, ts = ty :: us ∧ ty.kind.isType := by
  obtain ⟨ty, c, ts, ds, hty, -, -⟩ := h
  exact ⟨ty, _, rfl, hty⟩

theorem Token.Kind.startsStmt_of_isType (h : k.isType) : k.startsStmt := by
  match k, h with
  | .keyword .intKw, _ | .keyword .charKw, _ | .keyword .doubleKw, _ | .keyword .stringKw, _ => rfl

theorem Token.Kind.startsStmt_of_startsExpr (h : k.startsExpr) : k.startsStmt := by
  match k, h with
  | .number, _ | .string, _ | .name, _ | .symbol .openParen, _ | .symbol .plus, _
  | .symbol .minus, _ | .symbol .bang, _ => rfl

theorem DerivesStmt.head (h : DerivesStmt ts a) : ∃ t us, ts = t :: us ∧ t.kind.startsStmt := by
  cases h with
  | block _ _ h =>
    obtain ⟨o, us, hts, ho⟩ := h.head
    exact ⟨o, us, hts, by rw [ho]; rfl⟩
  | declaration _ _ h =>
    obtain ⟨ty, us, hts, hty⟩ := h.head
    exact ⟨ty, us, hts, Token.Kind.startsStmt_of_isType hty⟩
  | exprStmt t _ ts _ h _ =>
    obtain ⟨t', us, hts, hstart, -⟩ := h.head
    cases hts
    exact ⟨t, _, rfl, Token.Kind.startsStmt_of_startsExpr hstart⟩
  | returnNothing w _ hw | returnValue w _ _ _ hw | breakStmt w _ hw | continueStmt w _ hw
  | conditional w _ _ _ _ _ _ _ _ hw | whileLoop w _ _ _ _ _ _ hw | doWhile w _ _ _ _ _ _ _ _ hw
  | forLoop w _ _ _ _ _ _ _ _ _ _ _ hw => exact ⟨w, _, rfl, by rw [hw]; rfl⟩

variable {e : Token}

theorem DerivesStmts.next_ne_else (h : DerivesStmts ts as)
    (hrest : nextKind e rest ≠ .keyword .elseKw) : nextKind e (ts ++ rest) ≠ .keyword .elseKw := by
  cases h with
  | nil => exact hrest
  | skip c ts _ hc _ =>
    show c.kind ≠ _
    rw [hc]
    exact nofun
  | cons ts us a as h _ =>
    obtain ⟨t, us', rfl, hstart⟩ := h.head
    intro hk
    rw [show t.kind = .keyword .elseKw from hk] at hstart
    cases hstart

/-! ## Reading declarations -/

namespace Parser

variable {α : Type} {t : Token} {ts rest : List Token} {a : Tree} {n : Nat}

theorem expectThen_ahead (h : t.kind = k) (w : Wanted) (f : Token → Parser α) :
    (expect k w >>= f) (.ahead e (t :: ts)) = f t (.ahead e ts) :=
  bind_of_eq (expect_ahead h w) f

theorem typeThen_ahead (h : t.kind.isType) (w : Wanted) (f : Tree → Parser α) :
    (typeName w >>= f) (.ahead e (t :: ts)) = f (leaf .typeName t) (.ahead e ts) := by
  have htype : typeName w (.ahead e (t :: ts)) = (leaf .typeName t, .ahead e ts) := by
    rw [typeName, peekThen_ahead, if_pos h]
    rfl
  exact bind_of_eq htype f

theorem expressionThen_ahead (h : Derives .expression ts a) {z : Symbol} (hc : c.kind = .symbol z)
    (hz : Precedence.ofSign? z = none) (hn : (ts ++ c :: rest).length ≤ n) (f : Tree → Parser α) :
    (expression (.upTo n) >>= f) (.ahead e (ts ++ c :: rest)) = f a (.ahead e (c :: rest)) :=
  bind_of_eq (h.reads hn (Precedence.stops_of_none _ hc hz _)) f

end Parser

variable {ts us vs rest : List Token} {a body : Tree} {as : List Tree} {n : Nat}

/-- An item that is read where a comma or the sign `close` follows. -/
def ReadsItem (e : Token) (item : Parser Tree) (close : Symbol) (n : Nat) (ts : List Token)
    (a : Tree) : Prop :=
  ∀ rest, (ts ++ rest).length ≤ n → nextKind e rest = .symbol .comma ∨
    nextKind e rest = .symbol close →
    item (.ahead e (ts ++ rest)) = (a, .ahead e rest)

theorem Separated.reads {D : List Token → Tree → Prop} (h : Separated D ts as) {item : Parser Tree}
    {close : Symbol} (hitem : ∀ ts a, D ts a → ReadsItem e item close n ts a)
    (hclose : nextKind e rest = .symbol close) (hne : close ≠ .comma) (hn : (ts ++ rest).length ≤ n)
    (hm : (ts ++ rest).length ≤ m) :
    commaSeparated m item (.ahead e (ts ++ rest)) = (as, .ahead e rest) := by
  induction h generalizing m with
  | one ts a h =>
    have hstop : nextKind e rest ≠ .symbol .comma := by
      rw [hclose]
      exact fun hk => hne (Token.Kind.symbol.inj hk)
    exact commaSeparated_one (hitem ts a h rest hn (.inr hclose)) hstop m
  | cons ts us c a as h hc _ ih =>
    rw [append_assoc, cons_append] at hn hm ⊢
    obtain _ | m := m
    · simp at hm
    have hmore : commaSeparated m item _ = _ := ih (by grind) (by grind)
    exact commaSeparated_cons (hitem ts a h _ hn (.inl hc)) hc hmore

theorem DerivesDeclarator.reads (h : DerivesDeclarator ts a) :
    ReadsItem e (declarator (.upTo n)) .semicolon n ts a := by
  intro rest hn hnext
  have hassign : nextKind e rest ≠ .symbol .assign := by
    rcases hnext with hk | hk <;> rw [hk] <;> decide
  have hbracket : nextKind e rest ≠ .symbol .openBracket := by
    rcases hnext with hk | hk <;> rw [hk] <;> decide
  cases h with
  | plain x hx =>
    show declarator _ (.ahead e (x :: rest)) = _
    rw [declarator, expectThen_ahead hx]
    dsimp only
    rw [refuseThen_ahead hassign, pure_bind, refuseThen_ahead hbracket]
    rfl
  | initial x c ts a hx hc h =>
    rw [cons_append, cons_append] at hn ⊢
    have hstop : Precedence.assignment.Stops e rest := by
      unfold Precedence.Stops
      rcases hnext with hk | hk <;> rw [hk] <;> rfl
    have hread : assignment (.upTo n) (.ahead e (ts ++ rest)) = (a, .ahead e rest) :=
      h.reads (by grind) hstop
    rw [declarator, expectThen_ahead hx]
    dsimp only
    rw [acceptThen_ahead hc, bind_of_eq hread, pure_bind, refuseThen_ahead hbracket]
    rfl
  | array x o c ts a hx ho h hc =>
    simp only [cons_append, append_assoc, nil_append] at hn ⊢
    have hequals : nextKind e (o :: (ts ++ c :: rest)) ≠ .symbol .assign := by
      show o.kind ≠ _
      rw [ho]
      decide
    rw [declarator, expectThen_ahead hx]
    dsimp only
    rw [refuseThen_ahead hequals, pure_bind, acceptThen_ahead ho]
    show (expression (.upTo n) >>= _) _ = _
    rw [expressionThen_ahead h hc rfl (by grind), expectSignThen_ahead hc]
    rfl

theorem DerivesDeclaration.reads (h : DerivesDeclaration ts a) (hn : (ts ++ rest).length ≤ n) :
    declaration (.upTo n) (.ahead e (ts ++ rest)) = (a, .ahead e rest) := by
  obtain ⟨ty, c, ts, ds, hty, hds, hc⟩ := h
  simp only [cons_append, append_assoc, nil_append] at hn ⊢
  have hlen : (ts ++ c :: rest).length ≤ n := by grind
  have hnames : commaSeparated n (declarator (.upTo n)) (.ahead e (ts ++ c :: rest)) =
      (ds, .ahead e (c :: rest)) :=
    hds.reads (fun _ _ hd => hd.reads) hc (by decide) hlen hlen
  rw [declaration, hereThen_ahead, typeThen_ahead hty, Productions.bound_upTo, bind_of_eq hnames,
    expectSignThen_ahead hc]
  rfl

theorem DerivesFirst.reads (h : DerivesFirst ts a) (hn : (ts ++ rest).length ≤ n) :
    forFirst (.upTo n) (.ahead e (ts ++ rest)) = (a, .ahead e rest) := by
  cases h with
  | omitted c hc =>
    show forFirst _ (.ahead e (c :: rest)) = _
    rw [forFirst, peekThen_ahead, if_neg (by rw [hc]; decide), acceptThen_ahead hc]
    rfl
  | declaration _ _ h =>
    obtain ⟨ty, us, rfl, hty⟩ := h.head
    rw [forFirst, cons_append, peekThen_ahead, if_pos hty]
    exact h.reads hn
  | expr t c ts a h hc =>
    simp only [cons_append, append_assoc, nil_append] at hn ⊢
    obtain ⟨t', us, hts, hstart, -⟩ := h.head
    cases hts
    have htype : ¬t.kind.isType := by
      intro hty
      match hk : t.kind, hty, hstart with
      | .keyword _, _, hstart => cases hstart
    have hsemi : nextKind e (t :: (ts ++ c :: rest)) ≠ .symbol .semicolon := by
      intro hk
      rw [show t.kind = .symbol .semicolon from hk] at hstart
      cases hstart
    rw [forFirst, peekThen_ahead, if_neg htype, refuseThen_ahead hsemi]
    rw [← cons_append] at hn ⊢
    rw [expressionThen_ahead h hc rfl hn, expectSignThen_ahead hc]
    rfl

theorem DerivesOptional.reads {z : Symbol} (h : DerivesOptional c ts a) (hc : c.kind = .symbol z)
    (hz : Precedence.ofSign? z = none) (hstart : (Token.Kind.symbol z).startsExpr = false)
    (hn : (ts ++ c :: rest).length ≤ n) :
    optionalBefore (.upTo n) z (.ahead e (ts ++ c :: rest)) = (a, .ahead e (c :: rest)) := by
  cases h with
  | omitted =>
    rw [optionalBefore, nil_append, peekThen_ahead, if_pos hc]
    rfl
  | expr _ _ h =>
    obtain ⟨t, us, rfl, ht, -⟩ := h.head
    have hne : t.kind ≠ .symbol z := by
      intro hk
      rw [hk, hstart] at ht
      cases ht
    rw [optionalBefore, cons_append, peekThen_ahead, if_neg hne]
    exact h.reads hn (Precedence.stops_of_none _ hc hz _)

/-! ## Reading statements -/

/-- A statement that is read as it is derived. An `else` behind it would be read too. -/
def CompleteStmt (e : Token) (ts : List Token) (a : Tree) : Prop :=
  ∀ (n : Nat) (rest : List Token), (ts ++ rest).length ≤ n → nextKind e rest ≠ .keyword .elseKw →
    statement (.upTo n) (.ahead e (ts ++ rest)) = (a, .ahead e rest)

def CompleteBlock (e : Token) (ts : List Token) (a : Tree) : Prop :=
  ∀ (n : Nat) (rest : List Token), (ts ++ rest).length ≤ n →
    Parser.block (.upTo n) (.ahead e (ts ++ rest)) = (a, .ahead e rest)

def CompleteStmts (e : Token) (ts : List Token) (as : List Tree) : Prop :=
  ∀ (n m : Nat) (rest : List Token), (ts ++ rest).length ≤ n → (ts ++ rest).length ≤ m →
    nextKind e rest = .symbol .closeBrace →
    statements (.upTo (n + 1)) (m + 1) (.ahead e (ts ++ rest)) = (as, .ahead e rest)

def CompleteBranches (e : Token) (ts : List Token) (as : List Tree) : Prop :=
  ∀ (n m : Nat) (rest : List Token), (ts ++ rest).length ≤ n → (ts ++ rest).length ≤ m →
    nextKind e rest ≠ .keyword .elseKw →
    elseBranches (.upTo n) (m + 1) (.ahead e (ts ++ rest)) = (as, .ahead e rest)

namespace CompleteStmt

theorem block (hd : DerivesBlock ts a) (h : CompleteBlock e ts a) : CompleteStmt e ts a := by
  intro n rest hn _
  obtain ⟨o, us, rfl, ho⟩ := hd.head
  rw [statement, cons_append, peekThen_ahead, ho]
  exact h n rest hn

theorem declaration (h : DerivesDeclaration ts a) : CompleteStmt e ts a := by
  intro n rest hn _
  have hread := h.reads (e := e) hn
  obtain ⟨ty, us, rfl, hty⟩ := h.head
  rw [statement, cons_append, peekThen_ahead]
  generalize ty.kind = k at hty
  match k, hty with
  | .keyword .intKw, _ | .keyword .charKw, _ | .keyword .doubleKw, _ | .keyword .stringKw, _ =>
    exact hread

theorem exprStmt {t : Token} (h : Derives .expression (t :: ts) a)
    (hc : c.kind = .symbol .semicolon) :
    CompleteStmt e (t :: (ts ++ [c])) ⟨.exprStmt, "ExprStmt", false, t.loc, [a]⟩ := by
  intro n rest hn _
  simp only [cons_append, append_assoc, nil_append] at hn ⊢
  have hread : Parser.exprStmt (.upTo n) (.ahead e (t :: (ts ++ c :: rest))) =
      (⟨.exprStmt, "ExprStmt", false, t.loc, [a]⟩, .ahead e rest) := by
    rw [Parser.exprStmt, hereThen_ahead]
    rw [← cons_append] at hn ⊢
    rw [expressionThen_ahead h hc rfl hn, expectSignThen_ahead hc]
    rfl
  obtain ⟨t', us, hts, hstart, -⟩ := h.head
  cases hts
  rw [statement, peekThen_ahead]
  generalize t.kind = k at hstart
  match k, hstart with
  | .number, _ | .string, _ | .name, _ | .symbol .openParen, _ | .symbol .plus, _
  | .symbol .minus, _ | .symbol .bang, _ =>
    exact hread

theorem returnNothing (hw : w.kind = .keyword .returnKw) (hc : c.kind = .symbol .semicolon) :
    CompleteStmt e [w, c] ⟨.returnStmt, "Return", false, w.loc, []⟩ := by
  intro n rest hn _
  simp only [cons_append, nil_append] at hn ⊢
  rw [statement, peekThen_ahead, hw]
  dsimp only
  rw [returnStmt, hereThen_ahead, expectWordThen_ahead hw, peekThen_ahead]
  dsimp only
  rw [if_pos hc, pure_bind, expectSignThen_ahead hc]
  rfl

theorem returnValue (hw : w.kind = .keyword .returnKw) (ha : Derives .expression ts a)
    (hc : c.kind = .symbol .semicolon) :
    CompleteStmt e (w :: (ts ++ [c])) ⟨.returnStmt, "Return", false, w.loc, [a]⟩ := by
  intro n rest hn _
  simp only [cons_append, append_assoc, nil_append] at hn ⊢
  have hlen : (ts ++ c :: rest).length ≤ n := by grind
  rw [statement, peekThen_ahead, hw]
  dsimp only
  rw [returnStmt, hereThen_ahead, expectWordThen_ahead hw]
  have hread := expressionThen_ahead (α := Tree) (e := e) ha hc rfl hlen
  obtain ⟨t, us, rfl, hstart, -⟩ := ha.head
  have hsemi : t.kind ≠ .symbol .semicolon := by
    intro hk
    rw [hk] at hstart
    cases hstart
  rw [cons_append, peekThen_ahead]
  dsimp only
  rw [if_neg hsemi]
  refine (hread _).trans ?_
  rw [pure_bind, expectSignThen_ahead hc]
  rfl

theorem jump {kind : Tree.Kind} {text word : String}
    (h : ∀ r rest, statement r (.ahead e (w :: rest)) =
      Parser.jump kind text word (.ahead e (w :: rest))) (hc : c.kind = .symbol .semicolon) :
    CompleteStmt e [w, c] { kind, text, loc := w.loc } := by
  intro n rest _ _
  refine (h _ _).trans ?_
  show Parser.jump kind text word (.ahead e (w :: c :: rest)) = _
  rw [Parser.jump, advanceThen_ahead, expectSignThen_ahead hc]
  rfl

section Conditions

variable (ho : o.kind = .symbol .openParen) (ha : Derives .expression ts a)
  (hc : c.kind = .symbol .closeParen)
  (hbody : CompleteBlock e us body)

include ho ha hc hbody

theorem conditional (hw : w.kind = .keyword .ifKw) (hbranches : CompleteBranches e vs as) :
    CompleteStmt e (w :: o :: (ts ++ c :: (us ++ vs)))
      ⟨.conditional, "If", false, w.loc, a :: body :: as⟩ := by
  intro n rest hn helse
  simp only [cons_append, append_assoc] at hn ⊢
  have hlen : (ts ++ c :: (us ++ (vs ++ rest))).length ≤ n := by grind
  have hmore := hbranches n n rest (by grind) (by grind) helse
  have hblock := hbody n (vs ++ rest) (by grind)
  rw [statement, peekThen_ahead, hw]
  dsimp only
  rw [Parser.conditional, hereThen_ahead, expectWordThen_ahead hw, expectSignThen_ahead ho,
    expressionThen_ahead ha hc rfl hlen,
    expectSignThen_ahead hc, bind_of_eq hblock, Productions.bound_upTo, bind_of_eq hmore]
  rfl

theorem whileLoop (hw : w.kind = .keyword .whileKw) :
    CompleteStmt e (w :: o :: (ts ++ c :: us)) ⟨.whileLoop, "While", false, w.loc, [a, body]⟩ := by
  intro n rest hn _
  simp only [cons_append, append_assoc] at hn ⊢
  have hlen : (ts ++ c :: (us ++ rest)).length ≤ n := by grind
  have hblock := hbody n rest (by grind)
  rw [statement, peekThen_ahead, hw]
  dsimp only
  rw [Parser.whileLoop, hereThen_ahead, expectWordThen_ahead hw, expectSignThen_ahead ho,
    expressionThen_ahead ha hc rfl hlen, expectSignThen_ahead hc, bind_of_eq hblock]
  rfl

theorem doWhile {v z : Token} (hw : w.kind = .keyword .doKw) (hv : v.kind = .keyword .whileKw)
    (hz : z.kind = .symbol .semicolon) :
    CompleteStmt e (w :: (us ++ v :: o :: (ts ++ [c, z])))
      ⟨.doWhile, "DoWhile", false, w.loc, [body, a]⟩ := by
  intro n rest hn _
  simp only [cons_append, append_assoc, nil_append] at hn ⊢
  have hlen : (ts ++ c :: z :: rest).length ≤ n := by grind
  have hblock := hbody n (v :: o :: (ts ++ c :: z :: rest)) (by grind)
  rw [statement, peekThen_ahead, hw]
  dsimp only
  rw [Parser.doWhile, hereThen_ahead, expectWordThen_ahead hw, bind_of_eq hblock,
    expectWordThen_ahead hv, expectSignThen_ahead ho,
    expressionThen_ahead ha hc rfl hlen, expectSignThen_ahead hc, expectSignThen_ahead hz]
  rfl

end Conditions

theorem forLoop {z : Token} {ws : List Token} {first step : Tree} (hw : w.kind = .keyword .forKw)
    (ho : o.kind = .symbol .openParen) (hfirst : DerivesFirst ts first)
    (ha : DerivesOptional z us a) (hz : z.kind = .symbol .semicolon)
    (hstep : DerivesOptional c vs step) (hc : c.kind = .symbol .closeParen)
    (hbody : CompleteBlock e ws body) :
    CompleteStmt e (w :: o :: (ts ++ (us ++ z :: (vs ++ c :: ws))))
      ⟨.forLoop, "For", false, w.loc, [first, a, step, body]⟩ := by
  intro n rest hn _
  simp only [cons_append, append_assoc] at hn ⊢
  have hread : forFirst (.upTo n) (.ahead e (ts ++ (us ++ z :: (vs ++ c :: (ws ++ rest))))) = _ :=
    hfirst.reads (by grind)
  have hcond : optionalBefore (.upTo n) .semicolon
      (.ahead e (us ++ z :: (vs ++ c :: (ws ++ rest)))) = _ :=
    ha.reads hz rfl rfl (by grind)
  have hnext : optionalBefore (.upTo n) .closeParen (.ahead e (vs ++ c :: (ws ++ rest))) = _ :=
    hstep.reads hc rfl rfl (by grind)
  have hblock := hbody n rest (by grind)
  rw [statement, peekThen_ahead, hw]
  dsimp only
  rw [Parser.forLoop, hereThen_ahead, expectWordThen_ahead hw, expectSignThen_ahead ho,
    bind_of_eq hread, bind_of_eq hcond,
    expectSignThen_ahead hz, bind_of_eq hnext, expectSignThen_ahead hc, bind_of_eq hblock]
  rfl

end CompleteStmt

theorem CompleteBlock.mk (ho : o.kind = .symbol .openBrace) (h : CompleteStmts e ts as)
    (hc : c.kind = .symbol .closeBrace) :
    CompleteBlock e (o :: (ts ++ [c])) ⟨.block, "Block", false, o.loc, as⟩ := by
  intro n rest hn
  simp only [cons_append, append_assoc, nil_append] at hn ⊢
  obtain _ | n := n
  · simp at hn
  have hread := h n (n + 1) (c :: rest) (by grind) (by grind) hc
  rw [Parser.block, hereThen_ahead, expectSignThen_ahead ho, Productions.bound_upTo,
    bind_of_eq hread, expectSignThen_ahead hc]
  rfl

namespace CompleteStmts

theorem nil : CompleteStmts e [] [] := by
  intro n m rest _ _ hnext
  show (if nextKind e rest = .endOfInput ∨ nextKind e rest = .symbol .closeBrace then _
    else _ : Parser (List Tree)) _ = _
  rw [if_pos (.inr hnext)]
  rfl

theorem skip (hc : c.kind = .symbol .semicolon) (h : CompleteStmts e ts as) :
    CompleteStmts e (c :: ts) as := by
  intro n m rest hn hm hnext
  obtain _ | m := m
  · simp at hm
  have hread := h n m rest (by grind) (by grind) hnext
  rw [statements, cons_append, peekThen_ahead, if_neg (by rw [hc]; decide), acceptThen_ahead hc]
  exact hread

theorem cons (hd : DerivesStmt ts a) (ha : CompleteStmt e ts a) (hds : DerivesStmts us as)
    (h : CompleteStmts e us as) :
    CompleteStmts e (ts ++ us) (a :: as) := by
  intro n m rest hn hm hnext
  rw [append_assoc] at hn hm ⊢
  have helse : nextKind e (us ++ rest) ≠ .keyword .elseKw :=
    hds.next_ne_else (by rw [hnext]; decide)
  have hfirst := ha n (us ++ rest) hn helse
  obtain ⟨t, ts', rfl, hstart⟩ := hd.head
  obtain _ | m := m
  · simp at hm
  have hread := h n m rest (by grind) (by grind) hnext
  have hends : ¬(t.kind = .endOfInput ∨ t.kind = .symbol .closeBrace) := by
    rintro (hk | hk) <;> rw [hk] at hstart <;> cases hstart
  have hsemi : nextKind e (t :: (ts' ++ (us ++ rest))) ≠ .symbol .semicolon := by
    intro hk
    rw [show t.kind = .symbol .semicolon from hk] at hstart
    cases hstart
  rw [statements, cons_append, peekThen_ahead, if_neg hends, refuseThen_ahead hsemi]
  refine (bind_of_eq hfirst _).trans ?_
  rw [bind_of_eq hread]
  rfl

end CompleteStmts

namespace CompleteBranches

theorem nil : CompleteBranches e [] [] := by
  intro n m rest _ _ helse
  exact refuseThen_ahead helse _ _

theorem last (hw : w.kind = .keyword .elseKw) (hd : DerivesBlock ts body)
    (h : CompleteBlock e ts body) :
    CompleteBranches e (w :: ts) [body] := by
  intro n m rest hn hm _
  have hblock := h n rest (by grind)
  obtain ⟨o, us, rfl, ho⟩ := hd.head
  have hif : nextKind e (o :: us ++ rest) ≠ .keyword .ifKw := by
    show o.kind ≠ _
    rw [ho]
    decide
  rw [elseBranches, cons_append, hereThen_ahead, acceptThen_ahead hw, refuseThen_ahead hif,
    bind_of_eq hblock]
  rfl

theorem elseIf {v : Token} (hw : w.kind = .keyword .elseKw) (hv : v.kind = .keyword .ifKw)
    (ho : o.kind = .symbol .openParen) (ha : Derives .expression ts a)
    (hc : c.kind = .symbol .closeParen) (hbody : CompleteBlock e us body)
    (h : CompleteBranches e vs as) : CompleteBranches e (w :: v :: o :: (ts ++ c :: (us ++ vs)))
      (⟨.elseIf, "ElseIf", false, w.loc, [a, body]⟩ :: as) := by
  intro n m rest hn hm helse
  simp only [cons_append, append_assoc] at hn hm ⊢
  obtain _ | m := m
  · simp at hm
  have hlen : (ts ++ c :: (us ++ (vs ++ rest))).length ≤ n := by grind
  have hblock := hbody n (vs ++ rest) (by grind)
  have hmore := h n m rest (by grind) (by grind) helse
  rw [elseBranches, hereThen_ahead, acceptThen_ahead hw, acceptThen_ahead hv,
    expectSignThen_ahead ho,
    expressionThen_ahead ha hc rfl hlen, expectSignThen_ahead hc, bind_of_eq hblock]
  refine (bind_of_eq hmore _).trans ?_
  rfl

end CompleteBranches

mutual

theorem DerivesStmt.complete {ts : List Token} {a : Tree} : DerivesStmt ts a → CompleteStmt e ts a
  | .block _ _ h => .block h h.complete
  | .declaration _ _ h => .declaration h
  | .exprStmt _ _ _ _ h hc => .exprStmt h hc
  | .returnNothing _ _ hw hc => .returnNothing hw hc
  | .returnValue _ _ _ _ hw ha hc => .returnValue hw ha hc
  | .breakStmt _ _ hw hc => .jump (fun r rest => by rw [statement, peekThen_ahead, hw]) hc
  | .continueStmt _ _ hw hc => .jump (fun r rest => by rw [statement, peekThen_ahead, hw]) hc
  | .conditional _ _ _ _ _ _ _ _ _ hw ho ha hc hbody hbranches =>
    .conditional ho ha hc hbody.complete hw hbranches.complete
  | .whileLoop _ _ _ _ _ _ _ hw ho ha hc hbody => .whileLoop ho ha hc hbody.complete hw
  | .doWhile _ _ _ _ _ _ _ _ _ hw hbody hv ho ha hc hz => .doWhile ho ha hc hbody.complete hw hv hz
  | .forLoop _ _ _ _ _ _ _ _ _ _ _ _ hw ho hf ha hz hs hc hbody =>
    .forLoop hw ho hf ha hz hs hc hbody.complete

theorem DerivesBlock.complete {ts : List Token} {a : Tree} :
    DerivesBlock ts a → CompleteBlock e ts a
  | .mk _ _ _ _ ho h hc => .mk ho h.complete hc

theorem DerivesStmts.complete {ts : List Token} {as : List Tree} :
    DerivesStmts ts as → CompleteStmts e ts as
  | .nil => .nil
  | .skip _ _ _ hc h => .skip hc h.complete
  | .cons _ _ _ _ ha h => .cons ha ha.complete h h.complete

theorem DerivesBranches.complete {ts : List Token} {as : List Tree} :
    DerivesBranches ts as → CompleteBranches e ts as
  | .nil => .nil
  | .last _ _ _ hw h => .last hw h h.complete
  | .elseIf _ _ _ _ _ _ _ _ _ _ hw hv ho ha hc hbody h =>
    .elseIf hw hv ho ha hc hbody.complete h.complete

end

/-- **A derived statement is read** without errors, up to its last token. -/
theorem DerivesStmt.reads (h : DerivesStmt ts a) (hn : (ts ++ rest).length ≤ n)
    (helse : nextKind e rest ≠ .keyword .elseKw) :
    statement (.upTo n) (.ahead e (ts ++ rest)) = (a, .ahead e rest) :=
  h.complete n rest hn helse

/-! ## Reading programs -/

theorem DerivesParameter.reads (h : DerivesParameter ts a) :
    ReadsItem e parameter .closeParen n ts a := by
  intro rest _ hnext
  have hbracket : nextKind e rest ≠ .symbol .openBracket := by
    rcases hnext with hk | hk <;> rw [hk] <;> decide
  cases h with
  | plain ty x hty hx =>
    have hno : accept (.symbol .openBracket) (.ahead e rest) = (false, .ahead e rest) :=
      accept_eq_false hbracket
    show parameter (.ahead e (ty :: x :: rest)) = _
    rw [parameter, typeThen_ahead hty, expectThen_ahead hx, bind_of_eq hno]
    rfl
  | array ty x o c hty hx ho hc =>
    have hyes : accept (.symbol .openBracket) (.ahead e (o :: c :: rest)) =
        (true, .ahead e (c :: rest)) :=
      accept_eq_true (s := .ahead e (o :: c :: rest)) ho
    show parameter (.ahead e (ty :: x :: o :: c :: rest)) = _
    rw [parameter, typeThen_ahead hty, expectThen_ahead hx, bind_of_eq hyes]
    dsimp only
    rw [if_pos rfl, expectSignThen_ahead hc]
    rfl

theorem DerivesParameter.head (h : DerivesParameter ts a) :
    ∃ ty us, ts = ty :: us ∧ ty.kind.isType := by
  cases h with
  | plain ty _ hty => exact ⟨ty, _, rfl, hty⟩
  | array ty _ _ _ hty => exact ⟨ty, _, rfl, hty⟩

theorem Separated.head {D : List Token → Tree → Prop} (h : Separated D ts as) {p : Token → Prop}
    (hD : ∀ {ts a}, D ts a → ∃ t us, ts = t :: us ∧ p t) : ∃ t us, ts = t :: us ∧ p t := by
  cases h with
  | one _ _ h => exact hD h
  | cons ts us c a as h _ _ =>
    obtain ⟨t, us', rfl, ht⟩ := hD h
    exact ⟨t, _, rfl, ht⟩

theorem DerivesParameters.reads (h : DerivesParameters ts as) (hn : (ts ++ rest).length ≤ n) :
    parameters (.upTo n) (.ahead e (ts ++ rest)) = (as, .ahead e rest) := by
  cases h with
  | none c hc => exact acceptThen_ahead hc _ _
  | some ts c _ h hc =>
    rw [append_assoc, singleton_append] at hn ⊢
    have hlist : commaSeparated n parameter (.ahead e (ts ++ c :: rest)) =
        (as, .ahead e (c :: rest)) :=
      h.reads (fun _ _ hp => hp.reads) hc (by decide) hn hn
    obtain ⟨ty, us, rfl, hty⟩ := h.head DerivesParameter.head
    have hclose : nextKind e (ty :: us ++ c :: rest) ≠ .symbol .closeParen := by
      intro hk
      rw [show ty.kind = .symbol .closeParen from hk] at hty
      cases hty
    rw [parameters, refuseThen_ahead hclose, Productions.bound_upTo, bind_of_eq hlist,
      expectSignThen_ahead hc]
    rfl

theorem DerivesFunction.reads (h : DerivesFunction ts a) (hn : (ts ++ rest).length ≤ n) :
    function (.upTo n) (.ahead e (ts ++ rest)) = (a, .ahead e rest) := by
  obtain ⟨w, ty, x, o, ts, us, ps, body, hw, hty, hx, ho, hps, hbody⟩ := h
  simp only [cons_append, append_assoc] at hn ⊢
  have hparams : parameters (.upTo n) (.ahead e (ts ++ (us ++ rest))) =
      (ps, .ahead e (us ++ rest)) :=
    hps.reads (by grind)
  have hblock := hbody.complete (e := e) n rest (by grind)
  rw [function, hereThen_ahead, expectWordThen_ahead hw, typeThen_ahead hty, expectThen_ahead hx,
    expectSignThen_ahead ho, bind_of_eq hparams, bind_of_eq hblock]
  rfl

theorem DerivesItems.next_ne_else (h : DerivesItems ts as)
    (hrest : nextKind e rest ≠ .keyword .elseKw) :
    nextKind e (ts ++ rest) ≠ .keyword .elseKw := by
  cases h with
  | nil => exact hrest
  | skip c _ _ hc =>
    show c.kind ≠ _
    rw [hc]
    decide
  | function ts us a as h _ =>
    obtain ⟨w, ty, x, o, ts, us', ps, body, hw, -⟩ := h
    show w.kind ≠ _
    rw [hw]
    decide
  | stmt ts us a as h _ =>
    obtain ⟨t, us', rfl, hstart⟩ := h.head
    intro hk
    rw [show t.kind = .keyword .elseKw from hk] at hstart
    cases hstart

theorem items_ahead {t : Token} (r : Productions) (hends : t.kind ≠ .endOfInput)
    (hsemi : t.kind ≠ .symbol .semicolon)
    (hfirst : (if t.kind = .keyword .fnKw then function r else statement r) (.ahead e (t :: ts)) =
      (a, .ahead e rest)) :
    items r (m + 1) (.ahead e (t :: ts)) = (do return a :: (← items r m)) (.ahead e rest) := by
  have hno : nextKind e (t :: ts) ≠ .symbol .semicolon := hsemi
  rw [items, peekThen_ahead, if_neg hends, refuseThen_ahead hno]
  by_cases hk : t.kind = .keyword .fnKw
  · rw [if_pos hk] at hfirst ⊢
    exact bind_of_eq hfirst _
  · rw [if_neg hk] at hfirst ⊢
    exact bind_of_eq hfirst _

theorem DerivesItems.reads (h : DerivesItems ts as) (hn : (ts ++ rest).length ≤ n)
    (hm : (ts ++ rest).length ≤ m) (hends : nextKind e rest = .endOfInput) :
    items (.upTo n) (m + 1) (.ahead e (ts ++ rest)) = (as, .ahead e rest) := by
  have helse : nextKind e rest ≠ .keyword .elseKw := by
    rw [hends]
    decide
  induction h generalizing m with
  | nil =>
    show (if nextKind e rest = .endOfInput then _ else _ : Parser (List Tree)) _ = _
    rw [if_pos hends]
    rfl
  | skip c ts as hc _ ih =>
    obtain _ | m := m
    · simp at hm
    have hmore : items (.upTo n) (m + 1) _ = _ := ih (by grind) (by grind)
    rw [items, cons_append, peekThen_ahead, if_neg (by rw [hc]; decide), acceptThen_ahead hc]
    exact hmore
  | function ts us a as h _ ih =>
    rw [append_assoc] at hn hm ⊢
    have hfirst := h.reads (e := e) hn
    obtain ⟨w, ty, x, o, ts, us', ps, body, hw, -⟩ := h
    obtain _ | m := m
    · simp at hm
    have hmore : items (.upTo n) (m + 1) _ = _ := ih (by grind) (by grind)
    simp only [cons_append] at hfirst ⊢
    rw [items_ahead _ (by rw [hw]; decide) (by rw [hw]; decide) (by rw [if_pos hw]; exact hfirst)]
    exact bind_of_eq hmore _
  | stmt ts us a as h hitems ih =>
    rw [append_assoc] at hn hm ⊢
    have hfirst := h.reads (e := e) hn (hitems.next_ne_else helse)
    obtain ⟨t, ts', rfl, hstart⟩ := h.head
    obtain _ | m := m
    · simp at hm
    have hmore : items (.upTo n) (m + 1) _ = _ := ih (by grind) (by grind)
    have hne : ∀ k : Token.Kind, k.startsStmt = false → t.kind ≠ k := by
      rintro k hk rfl
      rw [hk] at hstart
      cases hstart
    rw [cons_append] at hfirst ⊢
    rw [items_ahead _ (hne _ rfl) (hne _ rfl) (by rw [if_neg (hne _ rfl)]; exact hfirst)]
    exact bind_of_eq hmore _

/-- **A derived program is parsed** without errors. -/
theorem DerivesItems.program (h : DerivesItems ts as) (hends : nextKind e rest = .endOfInput) :
    program (.ahead e (ts ++ rest)) =
      (⟨.program, "Program", false, .start, as⟩, .ahead e rest) := by
  have hitems := h.reads (Nat.le_refl _) (Nat.le_refl _) hends
  have hlen : remaining (.ahead e (ts ++ rest)) = ((ts ++ rest).length, .ahead e (ts ++ rest)) :=
    rfl
  rw [Parser.program, bind_of_eq hlen]
  exact bind_of_eq hitems _

end Stacklet
