import Stacklet.Proofs.Parsing.Grammar.Statement
/-!
# What is parsed without errors

* `Parser.Accepts`: if a parser records no errors, then the tokens that it takes are derived, with
  what it returns as their tree.
* `Productions.accepts_upTo`: this holds of every production that may be nested, where few enough
  tokens are left.
* `parse_eq_empty_iff`: a list of tokens is parsed without errors if and only if a program derives
  what stands before the end of input.
-/

namespace Stacklet

open List

variable {k : Token.Kind}

namespace Parser

variable {α β : Type} {n m : Nat} {t : Token}

/-! ## Runs without errors -/

/-- Errors stay: a run that ends without errors starts without errors. -/
def Clean (x : Parser α) : Prop := ∀ s, (x s).2.errors = #[] → s.errors = #[]

theorem Clean.of_forward (x : Parser α) [h : Forward x] : Clean x := fun s =>
  h.keeps (R := fun s s' => s'.errors = #[] → s.errors = #[]) (fun _ => id)
    (fun h h' hs => h (h' hs)) (fun _ _ _ _ _ => id)
    (fun _ _ hs => absurd hs Array.push_ne_empty) s

theorem Clean.bind {x : Parser α} {f : α → Parser β} (hx : Clean x) (hf : ∀ a, Clean (f a)) :
    Clean (x >>= f) :=
  fun s hs => hx s (hf (x s).1 (x s).2 hs)

theorem Clean.advance : Clean advance := fun _ => id

/-- A parser whose runs without errors, where fewer than `n` tokens are left, take tokens that stand
in the relation `Q` to what is returned. -/
structure Accepts (n : Nat) (Q : List Token → α → Prop) (x : Parser α) : Prop where
  clean : Clean x
  reads : ∀ s : State, s.Ends → s.left < n → (x s).2.errors = #[] →
    ∃ ts, s.rest = ts ++ (x s).2.rest ∧ Q ts (x s).1

/-- The same where the next token is `t`. -/
structure AcceptsAt (n : Nat) (t : Token) (Q : List Token → α → Prop) (x : Parser α) : Prop where
  clean : ∀ s : State, s.peek = t → (x s).2.errors = #[] → s.errors = #[]
  reads : ∀ s : State, s.peek = t → s.Ends → s.left < n → (x s).2.errors = #[] →
    ∃ ts, s.rest = ts ++ (x s).2.rest ∧ Q ts (x s).1

namespace Accepts

variable {Q : List Token → α → Prop}

theorem mono {x : Parser α} {Q' : List Token → α → Prop} (h : Accepts n Q x) (hm : m ≤ n)
    (hQ : ∀ ts a, Q ts a → Q' ts a) :
    Accepts m Q' x := by
  refine ⟨h.clean, fun s hs hleft herr => ?_⟩
  obtain ⟨ts, hts, hQts⟩ := h.reads s hs (Nat.lt_of_lt_of_le hleft hm) herr
  exact ⟨ts, hts, hQ _ _ hQts⟩

theorem pure {a : α} (h : Q [] a) : Accepts n Q (pure a : Parser α) :=
  ⟨fun _ => id, fun _ _ _ _ => ⟨[], rfl, h⟩⟩

theorem atEach {x : Parser α} (h : ∀ t, AcceptsAt n t Q x) : Accepts n Q x :=
  ⟨fun s => (h s.peek).clean s rfl, fun s => (h s.peek).reads s rfl⟩

theorem peekThen {f : Token → Parser α} (h : ∀ t, AcceptsAt n t Q (f t)) :
    Accepts n Q (peek >>= f) :=
  ⟨fun s => (h s.peek).clean s rfl, fun s => (h s.peek).reads s rfl⟩

theorem hereThen {f : Loc → Parser α} (h : ∀ t, AcceptsAt n t Q (f t.loc)) :
    Accepts n Q (here >>= f) :=
  ⟨fun s => (h s.peek).clean s rfl, fun s => (h s.peek).reads s rfl⟩

end Accepts

namespace AcceptsAt

variable {w : Wanted}

variable {Q : List Token → α → Prop} {R : List Token → β → Prop}

theorem of_accepts {x : Parser α} (h : Accepts n Q x) : AcceptsAt n t Q x :=
  ⟨fun s _ => h.clean s, fun s _ => h.reads s⟩

theorem bind {x : Parser α} {f : α → Parser β} [Forward x] (hx : AcceptsAt n t Q x)
    (hf : ∀ us a, Accepts n (fun vs b => Q us a → R (us ++ vs) b) (f a)) :
    AcceptsAt n t R (x >>= f) := by
  refine ⟨fun s ht herr => hx.clean s ht ((hf [] _).clean _ herr), fun s ht hs hleft herr => ?_⟩
  have hlater := Forward.later x s
  obtain ⟨us, hus, hQ⟩ := hx.reads s ht hs hleft ((hf [] _).clean _ herr)
  obtain ⟨vs, hvs, hR⟩ := (hf us (x s).1).reads (x s).2 (hlater.ends hs)
    (Nat.lt_of_le_of_lt hlater.left_le hleft) herr
  refine ⟨us ++ vs, ?_, hR hQ⟩
  rw [hus, hvs, append_assoc]
  rfl

theorem first {x : Parser α} (h : Accepts n Q x) :
    AcceptsAt n t (fun ts a => Q ts a ∧ ∀ t' us, ts = t' :: us → t' = t) x := by
  refine ⟨fun s _ => h.clean s, ?_⟩
  rintro s rfl hs hleft herr
  obtain ⟨ts, hts, hQ⟩ := h.reads s hs hleft herr
  refine ⟨ts, hts, hQ, ?_⟩
  rintro t' us rfl
  rw [State.peek, hts]
  rfl

theorem ite {p : Prop} [Decidable p] {x y : Parser α} (hx : p → AcceptsAt n t Q x)
    (hy : ¬p → AcceptsAt n t Q y) :
    AcceptsAt n t Q (if p then x else y) := by
  split
  · next h => exact hx h
  · next h => exact hy h

theorem rest_eq {s : State} (hs : s.Ends) (ht : s.peek.kind ≠ .endOfInput) :
    s.rest = s.peek :: s.rest.tail := by
  unfold State.peek at ht ⊢
  match hr : s.rest with
  | [] =>
    rw [hr] at ht
    exact absurd hs ht
  | t :: ts => rfl

theorem advanceThen {f : Token → Parser α} (hm : n ≤ m + 1) (ht : t.kind ≠ .endOfInput)
    (h : Accepts m (fun vs b => Q (t :: vs) b) (f t)) : AcceptsAt n t Q (advance >>= f) := by
  refine ⟨?_, ?_⟩
  · rintro s rfl herr
    exact h.clean { s with rest := s.rest.tail } herr
  · rintro s rfl hs hleft herr
    have hless : State.left { s with rest := s.rest.tail } < s.left := TakesAt.advance ht s hs rfl
    obtain ⟨vs, hvs, hQ⟩ := h.reads { s with rest := s.rest.tail } hs (by omega) herr
    refine ⟨s.peek :: vs, ?_, hQ⟩
    rw [rest_eq hs ht, cons_append]
    exact congrArg _ hvs

theorem acceptIf {x y : Parser α} (hm : n ≤ m + 1) (hk : k ≠ .endOfInput)
    (hyes : t.kind = k → Accepts m (fun vs b => Q (t :: vs) b) x)
    (hno : t.kind ≠ k → AcceptsAt n t Q y) :
    AcceptsAt n t Q (accept k >>= fun b => if b = true then x else y) := by
  by_cases h : t.kind = k
  · have hrun (s : State) (hs : s.peek = t) : (accept k >>= fun b => if b = true then x else y) s =
        (advance >>= fun _ => x) s := by
      rw [bind_of_eq (accept_eq_true (hs ▸ h)), if_pos rfl]
      rfl
    have hx : AcceptsAt n t Q (advance >>= fun _ => x) := advanceThen hm (h ▸ hk) (hyes h)
    refine ⟨fun s hs => ?_, fun s hs => ?_⟩
    · rw [hrun s hs]
      exact hx.clean s hs
    · rw [hrun s hs]
      exact hx.reads s hs
  · have hrun (s : State) (hs : s.peek = t) :
        (accept k >>= fun b => if b = true then x else y) s = y s := by
      rw [bind_of_eq (accept_eq_false (hs ▸ h)), if_neg Bool.false_ne_true]
    refine ⟨fun s hs => ?_, fun s hs => ?_⟩
    · rw [hrun s hs]
      exact (hno h).clean s hs
    · rw [hrun s hs]
      exact (hno h).reads s hs

theorem reportThen {x : Parser α} (hx : Clean x) (e : SyntaxError) :
    AcceptsAt n t Q (report e >>= fun _ => x) :=
  have herror (s : State) (herr : ((report e >>= fun _ => x) s).2.errors = #[]) : False :=
    absurd (hx _ herr) Array.push_ne_empty
  ⟨fun s _ herr => (herror s herr).elim, fun s _ _ _ herr => (herror s herr).elim⟩

theorem expectThen {f : Token → Parser α} (hm : n ≤ m + 1) (hk : k ≠ .endOfInput)
    (hf : ∀ a, Clean (f a)) (h : t.kind = k → Accepts m (fun vs b => Q (t :: vs) b) (f t)) :
    AcceptsAt n t Q (expect k w >>= f) := by
  have hclean : Clean (expect k w >>= f) := by
    have := expect_forward hk w
    exact (Clean.of_forward (expect k w)).bind hf
  refine ⟨fun s _ => hclean s, ?_⟩
  rintro s rfl hs hleft herr
  by_cases hkind : s.peek.kind = k
  · have hrun : expect k w s = (s.peek, { s with rest := s.rest.tail }) := by
      show (if s.peek.kind = k then advance else _ : Parser Token) s = _
      rw [if_pos hkind]
      rfl
    have hx : AcceptsAt n s.peek Q (advance >>= f) := advanceThen hm (hkind ▸ hk) (h hkind)
    rw [bind_of_eq hrun] at herr ⊢
    exact hx.reads s rfl hs hleft herr
  · -- the error that is recorded here would stay
    have hfalse : (expect k w s).2.errors ≠ #[] := by
      show ((if s.peek.kind = k then _ else _ : Parser Token) s).2.errors ≠ #[]
      rw [if_neg hkind]
      split
      · exact Array.push_ne_empty
      · exact Array.push_ne_empty
    exact absurd (hf _ _ herr) hfalse

theorem expectSignThen {c : Symbol} {x : Parser α} (hm : n ≤ m + 1)
    (h : Accepts m (fun vs b => t.kind = .symbol c → Q (t :: vs) b) x) :
    AcceptsAt n t Q (expectSign c w >>= fun _ => x) :=
  expectThen (f := fun _ => x) hm (by simp) (fun _ => h.clean) fun hk =>
    h.mono (Nat.le_refl m) fun _ _ hQ => hQ hk

theorem expectWordThen {k : Keyword} {x : Parser α} (hm : n ≤ m + 1)
    (h : Accepts m (fun vs b => t.kind = .keyword k → Q (t :: vs) b) x) :
    AcceptsAt n t Q (expectWord k w >>= fun _ => x) :=
  expectThen (f := fun _ => x) hm (by simp) (fun _ => h.clean) fun hk =>
    h.mono (Nat.le_refl m) fun _ _ hQ => hQ hk

theorem typeThen {f : Tree → Parser α}
    (h : ∀ a, Accepts n (fun vs b => t.kind.isType → a = leaf .typeName t → Q (t :: vs) b) (f a)) :
    AcceptsAt n t Q (typeName w >>= f) := by
  have hclean : Clean (typeName w >>= f) :=
    (Clean.of_forward (typeName w)).bind fun a => (h a).clean
  refine ⟨fun s _ => hclean s, ?_⟩
  rintro s rfl hs hleft herr
  by_cases htype : s.peek.kind.isType
  · have hrun : typeName w s = (leaf .typeName s.peek, { s with rest := s.rest.tail }) := by
      show (if s.peek.kind.isType then _ else _ : Parser Tree) s = _
      rw [if_pos htype]
      rfl
    have hx : AcceptsAt n s.peek Q (advance >>= fun t => f (leaf .typeName t)) :=
      advanceThen (Nat.le_succ n) (ne_end_of_isType htype)
        ((h _).mono (Nat.le_refl n) fun _ _ hQ => hQ htype rfl)
    rw [bind_of_eq hrun] at herr ⊢
    exact hx.reads s rfl hs hleft herr
  · have hfalse : (typeName w s).2.errors ≠ #[] := by
      show ((if s.peek.kind.isType then _ else _ : Parser Tree) s).2.errors ≠ #[]
      rw [if_neg htype]
      exact Array.push_ne_empty
    exact absurd ((h _).clean _ herr) hfalse

end AcceptsAt

namespace Accepts

variable {w : Wanted}

variable {Q : List Token → α → Prop} {R : List Token → β → Prop}

theorem bind {x : Parser α} {f : α → Parser β} [Forward x] (hx : Accepts n Q x)
    (hf : ∀ us a, Accepts n (fun vs b => Q us a → R (us ++ vs) b) (f a)) : Accepts n R (x >>= f) :=
  atEach fun _ => (AcceptsAt.of_accepts hx).bind hf

theorem expectThen {f : Token → Parser α} (hm : n ≤ m + 1) (hk : k ≠ .endOfInput)
    (h : ∀ t, Accepts m (fun vs b => t.kind = k → Q (t :: vs) b) (f t)) :
    Accepts n Q (expect k w >>= f) :=
  atEach fun t => .expectThen hm hk (fun a => (h a).clean) fun hkind =>
    (h t).mono (Nat.le_refl m) fun _ _ hQ => hQ hkind

theorem expectSignThen {c : Symbol} {x : Parser α} (hm : n ≤ m + 1)
    (h : ∀ t, Accepts m (fun vs b => t.kind = .symbol c → Q (t :: vs) b) x) :
    Accepts n Q (expectSign c w >>= fun _ => x) :=
  atEach fun t => .expectSignThen hm (h t)

theorem expectWordThen {k : Keyword} {x : Parser α} (hm : n ≤ m + 1)
    (h : ∀ t, Accepts m (fun vs b => t.kind = .keyword k → Q (t :: vs) b) x) :
    Accepts n Q (expectWord k w >>= fun _ => x) :=
  atEach fun t => .expectWordThen hm (h t)

theorem usedUp (a : α) : Accepts n Q (Parser.usedUp a) :=
  atEach fun _ => .reportThen (fun _ => id) _

theorem acceptIf {x y : Parser α} (hm : n ≤ m + 1) (hk : k ≠ .endOfInput)
    (hyes : ∀ t : Token, t.kind = k → Accepts m (fun vs b => Q (t :: vs) b) x)
    (hno : Accepts n Q y) :
    Accepts n Q (accept k >>= fun b => if b = true then x else y) :=
  atEach fun t => .acceptIf hm hk (hyes t) fun _ => .of_accepts hno

end Accepts

end Parser

/-! ## Expressions -/

/-- Productions that accept what is derived, where fewer than `n` tokens are left. -/
structure Productions.Accept (n : Nat) (r : Productions) : Prop where
  expression : Parser.Accepts n (Derives .expression) r.expression
  assignment : Parser.Accepts n (Derives .assignment) r.assignment
  unary : Parser.Accepts n (Derives .unary) r.unary
  statement : Parser.Accepts n DerivesStmt r.statement

namespace Parser

theorem commaTail_accepts {n : Nat} {D : List Token → Tree → Prop} {item : Parser Tree}
    [Forward item] (h : Accepts n D item) (m : Nat) :
    Accepts n (fun vs as => ∀ us a, D us a → Separated D (us ++ vs) (a :: as))
      (commaTail item m) := by
  induction m with
  | zero => exact .usedUp _
  | succ m ih =>
    refine .acceptIf (Nat.le_succ n) nofun (fun c hc => ?_) (.pure fun us a ha => ?_)
    · refine h.bind fun vs b => ih.bind fun ws bs => .pure ?_
      intro hws hb us a ha
      rw [append_nil]
      exact .cons us _ c a _ ha hc (hws vs b hb)
    · rw [append_nil]
      exact .one us a ha

theorem commaSeparated_accepts {n : Nat} {D : List Token → Tree → Prop} {item : Parser Tree}
    [Forward item] (h : Accepts n D item) (m : Nat) :
    Accepts n (Separated D) (commaSeparated m item) := by
  refine h.bind fun us a => (commaTail_accepts h (m + 1)).bind fun vs as => .pure ?_
  intro hvs ha
  rw [append_nil]
  exact hvs us a ha

end Parser

theorem Separated.derivesList {ts : List Token} {as : List Tree}
    (h : Separated (Derives .assignment) ts as) :
    DerivesList ts as := by
  induction h with
  | one ts a h => exact .one ts a h
  | cons ts us c a as h hc _ ih => exact .cons ts us c a as h hc ih

namespace Parser

section Productions

variable {n : Nat} {r : Productions} [r.IsForward] (hr : r.Accept n)

include hr

theorem primary_accepts : Accepts (n + 1) (Derives .primary) (primary r) := by
  refine .peekThen fun t => ?_
  split
  · next hk => exact .advanceThen (Nat.le_refl _) (by simp [hk]) (.pure (.number t hk))
  · next hk => exact .advanceThen (Nat.le_refl _) (by simp [hk]) (.pure (.string t hk))
  · next hk => exact .advanceThen (Nat.le_refl _) (by simp [hk]) (.pure (.name t hk))
  · next hk =>
    refine .advanceThen (Nat.le_refl _) (by simp [hk]) ?_
    refine hr.expression.bind fun us a => .expectSignThen (Nat.le_succ n) fun c => .pure ?_
    exact fun hc ha => .parens us t c a hk ha hc
  · exact .reportThen (.of_forward _) _
  · exact .reportThen (.bind .advance fun _ => .of_forward _) _

theorem arguments_accepts :
    Accepts n (fun ts args => ∀ us o f, DerivesChain us f → o.kind = .symbol .openParen →
      DerivesChain (us ++ o :: ts) ⟨.call, "Call", false, f.loc, f :: args⟩) (arguments r) := by
  refine .acceptIf (Nat.le_succ n) nofun (fun c hc => .pure ?_) ?_
  · exact fun us o f hf ho => .callNone us o c f hf ho hc
  · refine (commaSeparated_accepts hr.assignment _).bind fun vs args =>
      .expectSignThen (Nat.le_succ n) fun c => .pure ?_
    exact fun hc hargs us o f hf ho => .call us vs o c f args hf ho hargs.derivesList hc

theorem suffixes_accepts (k : Nat) (us : List Token) (base : Tree) :
    Accepts (n + 1) (fun vs a => DerivesChain us base → DerivesChain (us ++ vs) a)
      (suffixes r k base) := by
  induction k generalizing us base with
  | zero => exact .usedUp _
  | succ k ih =>
    have hmore (ts : List Token) (b : Tree) := (ih ts b).mono (Nat.le_succ n) fun _ _ h => h
    refine .acceptIf (Nat.le_refl _) (by simp) (fun o ho => ?_) ?_
    · refine (arguments_accepts hr).bind fun vs args =>
        (hmore (us ++ o :: vs) _).mono (Nat.le_refl n) ?_
      intro ws b hb hargs hbase
      rw [append_assoc] at hb
      exact hb (hargs us o base hbase ho)
    · refine .acceptIf (Nat.le_refl _) (by simp) (fun o ho => ?_) (.pure fun h => ?_)
      · refine hr.expression.bind fun vs i => .expectSignThen (Nat.le_succ n) fun c => ?_
        refine (hmore (us ++ o :: (vs ++ [c])) _).mono (Nat.le_refl n) ?_
        intro ws b hb hc hi hbase
        have hb := hb (.index us vs o c base i hbase ho hi hc)
        rwa [append_assoc, cons_append, append_assoc] at hb
      · rwa [append_nil]

theorem suffixed_accepts : Accepts (n + 1) (Derives .suffixed) (suffixed r) := by
  refine (primary_accepts hr).bind fun us a => ?_
  by_cases hk : a.kind = .identifier
  · rw [if_pos hk]
    exact (suffixes_accepts hr _ us a).mono (Nat.le_refl _) fun vs b hb ha =>
      .chain _ _ (hb (.base us a ha hk))
  · rw [if_neg hk]
    refine .pure fun ha => ?_
    rw [append_nil]
    exact .tighter .suffixed us a Precedence.noConfusion ha

theorem unary_accepts : Accepts (n + 1) (Derives .unary) (unary r) := by
  refine .peekThen fun t => ?_
  have hoperator (hop : t.isPrefixOp) :
      AcceptsAt (n + 1) t (Derives .unary) (advance >>= fun _ => r.unary >>= fun operand =>
        pure ⟨.unary, t.text, false, t.loc, [operand]⟩) := by
    have hne : t.kind ≠ .endOfInput := by
      rcases of_decide_eq_true hop with hk | hk | hk <;> rw [hk] <;> simp
    refine .advanceThen (Nat.le_refl _) hne (hr.unary.bind fun us a => .pure fun ha => ?_)
    rw [append_nil]
    exact .unary us t a hop ha
  split
  · next hk => exact hoperator (by simp [Token.isPrefixOp, hk])
  · next hk => exact hoperator (by simp [Token.isPrefixOp, hk])
  · next hk => exact hoperator (by simp [Token.isPrefixOp, hk])
  · refine .of_accepts ((suffixed_accepts hr).mono (Nat.le_refl _) fun ts a ha => ?_)
    exact .tighter .unary ts a Precedence.noConfusion ha

omit [r.IsForward] hr in
theorem operatorTail_accepts {l : Precedence} (hl : l.isBinary) {operand : Parser Tree}
    [Forward operand] (h : Accepts n (Derives l.next) operand) (k : Nat) (us : List Token)
    (left : Tree) :
    Accepts n (fun vs b => Derives l us left → Derives l (us ++ vs) b)
      (operatorTail l.operators operand k left) := by
  induction k generalizing us left with
  | zero => exact .usedUp _
  | succ k ih =>
    refine .peekThen fun op => .ite (fun hop => ?_) fun _ => .of_accepts (.pure fun ha => ?_)
    · obtain ⟨s, hk, hs⟩ := (Precedence.isOneOf_operators hl op.kind).mp hop
      refine .advanceThen (Nat.le_succ n) (ne_end_of_isOneOf hop) ?_
      refine h.bind fun vs b => (ih (us ++ op :: vs) _).mono (Nat.le_refl n) ?_
      intro ws c hc hb ha
      rw [append_assoc] at hc
      exact hc (.binary l us vs op s left b hl ha hk hs hb)
    · rwa [append_nil]

omit [r.IsForward] hr in
theorem operatorLevel_accepts {l : Precedence} (hl : l.isBinary) {operand : Parser Tree}
    [Forward operand] (h : Accepts n (Derives l.next) operand) :
    Accepts n (Derives l) (operatorLevel r l.operators operand) := by
  refine h.bind fun us a => (operatorTail_accepts hl h _ us a).mono (Nat.le_refl n)
    fun vs b hb ha => ?_
  refine hb (.tighter l us a ?_ ha)
  rintro rfl
  cases hl

theorem equality_accepts : Accepts (n + 1) (Derives .equality) (equality r) :=
  operatorLevel_accepts (l := .equality) rfl (operatorLevel_accepts (l := .relational) rfl
    (operatorLevel_accepts (l := .additive) rfl
      (operatorLevel_accepts (l := .term) rfl (unary_accepts hr))))

theorem assignment_accepts : Accepts (n + 1) (Derives .assignment) (assignment r) := by
  refine (equality_accepts hr).bind fun us a => .acceptIf (Nat.le_refl _) nofun (fun c hc => ?_)
    (.pure fun ha => ?_)
  · have hvalue : Accepts n (fun vs b => isTarget a.kind → Derives .equality us a →
      Derives .assignment (us ++ c :: vs) b)
        (r.assignment >>= fun value => pure ⟨.assign, "=", false, a.loc, [a, value]⟩) := by
      refine hr.assignment.bind fun vs b => .pure fun hb htarget ha => ?_
      rw [append_nil]
      exact .assign us vs c a b ha htarget hc hb
    dsimp only
    split
    · next htarget => exact hvalue.mono (Nat.le_refl n) fun _ _ h => h htarget
    · exact .atEach fun _ => .reportThen hvalue.clean _
  · rw [append_nil]
    exact .tighter .assignment us a Precedence.noConfusion ha

theorem expression_accepts : Accepts (n + 1) (Derives .expression) (expression r) := by
  refine (assignment_accepts hr).bind fun us a => .acceptIf (Nat.le_refl _) nofun (fun c hc => ?_)
    (.pure fun ha => ?_)
  · refine hr.expression.bind fun vs b => .pure fun hb ha => ?_
    rw [append_nil]
    exact .comma us vs c a b ha hc hb
  · rw [append_nil]
    exact .tighter .expression us a Precedence.noConfusion ha

/-! ## Statements -/

theorem statements_accepts (k : Nat) : Accepts n DerivesStmts (statements r k) := by
  induction k with
  | zero => exact .usedUp _
  | succ k ih =>
    refine .peekThen fun t => .ite (fun _ => .of_accepts (.pure .nil)) fun _ => ?_
    refine .acceptIf (Nat.le_succ n) nofun (fun hc => ?_) fun _ => .of_accepts ?_
    · exact ih.mono (Nat.le_refl n) fun ts as has => .skip t ts as hc has
    · refine hr.statement.bind fun us a => ih.bind fun vs as => .pure fun has ha => ?_
      rw [append_nil]
      exact .cons us vs a as ha has

theorem block_accepts : Accepts (n + 1) DerivesBlock (block r) := by
  refine .hereThen fun o => .expectSignThen (Nat.le_refl _) ?_
  refine (statements_accepts hr _).bind fun us as =>
    .expectSignThen (Nat.le_succ n) fun c => .pure ?_
  exact fun hc has ho => .mk o c us as ho has hc

theorem declarator_accepts : Accepts (n + 1) DerivesDeclarator (declarator r) := by
  refine .expectThen (Nat.le_succ _) (by simp) fun x => ?_
  dsimp only
  refine .acceptIf (Nat.le_succ _) (by simp) (fun c hc => ?_) ?_
  · refine (assignment_accepts hr).bind fun us a => ?_
    rw [pure_bind]
    refine .acceptIf (Nat.le_succ _) (by simp) (fun _ _ => ?_) (.pure fun ha hx => ?_)
    · exact .atEach fun _ => .reportThen (.of_forward _) _
    · rw [append_nil]
      exact .initial x c us a hx hc ha
  · rw [pure_bind]
    refine .acceptIf (Nat.le_succ _) (by simp) (fun o ho => ?_) (.pure fun hx => .plain x hx)
    refine (expression_accepts hr).bind fun us a =>
      .expectSignThen (Nat.le_succ _) fun c => .pure ?_
    exact fun hc ha hx => .array x o c us a hx ho ha hc

theorem declaration_accepts : Accepts (n + 1) DerivesDeclaration (declaration r) := by
  refine .hereThen fun ty => .typeThen fun a => ?_
  refine (commaSeparated_accepts (declarator_accepts hr) _).bind fun us ds =>
    .expectSignThen (Nat.le_succ _) fun c => .pure ?_
  rintro hc hds hty rfl
  exact .mk ty c us ds hty hds hc

theorem elseBranches_accepts (k : Nat) : Accepts (n + 1) DerivesBranches (elseBranches r k) := by
  induction k with
  | zero => exact .usedUp _
  | succ k ih =>
    refine .hereThen fun w => .acceptIf (Nat.le_succ _) nofun (fun hw => ?_) fun _ =>
      .of_accepts (.pure .nil)
    refine .acceptIf (Nat.le_succ _) nofun (fun v hv => ?_) ?_
    · refine .expectSignThen (Nat.le_succ _) fun o => (expression_accepts hr).bind fun us a => ?_
      refine .expectSignThen (Nat.le_succ _) fun c => (block_accepts hr).bind fun vs body =>
        ih.bind fun ws branches => .pure ?_
      intro hws hbody hc ha ho
      rw [append_nil]
      exact .elseIf w v o c us vs ws a body branches hw hv ho ha hc hbody hws
    · refine (block_accepts hr).bind fun us body => .pure fun hbody => ?_
      rw [append_nil]
      exact .last w us body hw hbody

theorem conditional_accepts : Accepts (n + 1) DerivesStmt (conditional r) := by
  refine .hereThen fun w =>
    .expectWordThen (Nat.le_succ _) (.expectSignThen (Nat.le_succ _) fun o => ?_)
  refine (expression_accepts hr).bind fun us a => .expectSignThen (Nat.le_succ _) fun c => ?_
  refine (block_accepts hr).bind fun vs body =>
    (elseBranches_accepts hr _).bind fun ws branches => .pure ?_
  intro hws hbody hc ha ho hw
  rw [append_nil]
  exact .conditional w o c us vs ws a body branches hw ho ha hc hbody hws

theorem whileLoop_accepts : Accepts (n + 1) DerivesStmt (whileLoop r) := by
  refine .hereThen fun w =>
    .expectWordThen (Nat.le_succ _) (.expectSignThen (Nat.le_succ _) fun o => ?_)
  refine (expression_accepts hr).bind fun us a => .expectSignThen (Nat.le_succ _) fun c => ?_
  refine (block_accepts hr).bind fun vs body => .pure ?_
  intro hbody hc ha ho hw
  rw [append_nil]
  exact .whileLoop w o c us vs a body hw ho ha hc hbody

theorem doWhile_accepts : Accepts (n + 1) DerivesStmt (doWhile r) := by
  refine .hereThen fun w =>
    .expectWordThen (Nat.le_succ _) ((block_accepts hr).bind fun us body => ?_)
  refine .expectWordThen (Nat.le_succ _) fun v => .expectSignThen (Nat.le_succ _) fun o => ?_
  refine (expression_accepts hr).bind fun vs a => .expectSignThen (Nat.le_succ _) fun c => ?_
  refine .expectSignThen (Nat.le_succ _) fun z => .pure ?_
  exact fun hz hc ha ho hv hbody hw => .doWhile w v o c z vs us body a hw hbody hv ho ha hc hz

theorem forFirst_accepts : Accepts (n + 1) DerivesFirst (forFirst r) := by
  refine .peekThen fun t => .ite (fun _ => .of_accepts ?_) fun _ => ?_
  · exact (declaration_accepts hr).mono (Nat.le_refl _) fun ts a ha => .declaration ts a ha
  · refine .acceptIf (Nat.le_succ _) nofun (fun ht => .pure (.omitted t ht)) fun _ => ?_
    refine (AcceptsAt.first (expression_accepts hr)).bind fun us a =>
      .expectSignThen (Nat.le_succ _) fun c => .pure ?_
    rintro hc ⟨ha, hfirst⟩
    obtain ⟨t', us, rfl, -⟩ := ha.head
    obtain rfl := hfirst t' us rfl
    exact .expr t' c us a ha hc

theorem optionalThen_accepts {α : Type} {Q : List Token → α → Prop} {z : Symbol} {w : Wanted}
    {f : Tree → Parser α} (h : ∀ us a c,
      Accepts (n + 1) (fun vs b => DerivesOptional c us a → c.kind = .symbol z →
        Q (us ++ c :: vs) b) (f a)) :
    Accepts (n + 1) Q (optionalBefore r z >>= fun a => expectSign z w >>= fun _ => f a) := by
  rw [optionalBefore, bind_assoc]
  refine .peekThen fun t => ?_
  split
  · rw [pure_bind]
    exact .expectSignThen (Nat.le_succ _)
      ((h [] _ t).mono (Nat.le_refl _) fun _ _ hQ => hQ .omitted)
  · refine .of_accepts ((expression_accepts hr).bind fun us a => .expectSignThen (Nat.le_succ _)
      fun c => ?_)
    exact (h us a c).mono (Nat.le_refl _) fun _ _ hQ hc ha => hQ (.expr us a ha) hc

theorem forLoop_accepts : Accepts (n + 1) DerivesStmt (forLoop r) := by
  refine .hereThen fun w =>
    .expectWordThen (Nat.le_succ _) (.expectSignThen (Nat.le_succ _) fun o => ?_)
  refine (forFirst_accepts hr).bind fun us first => optionalThen_accepts hr fun vs a z => ?_
  refine optionalThen_accepts hr fun ws step c => (block_accepts hr).bind fun xs body => .pure ?_
  intro hbody hstep hc ha hz hfirst ho hw
  rw [append_nil]
  exact .forLoop w o z c us vs ws xs first a step body hw ho hfirst ha hz hstep hc hbody

theorem returnStmt_accepts : Accepts (n + 1) DerivesStmt (returnStmt r) := by
  refine .hereThen fun w => .expectWordThen (Nat.le_succ _) (.peekThen fun t => ?_)
  dsimp only
  refine .ite (fun _ => .of_accepts ?_) fun _ => .of_accepts ?_
  · rw [pure_bind]
    exact .expectSignThen (Nat.le_succ _) fun c => .pure fun hc hw => .returnNothing w c hw hc
  · refine (expression_accepts hr).bind fun us a => ?_
    rw [pure_bind]
    exact .expectSignThen (Nat.le_succ _) fun c => .pure fun hc ha hw =>
      .returnValue w c us a hw ha hc

theorem exprStmt_accepts : Accepts (n + 1) DerivesStmt (exprStmt r) := by
  refine .hereThen fun t => (AcceptsAt.first (expression_accepts hr)).bind fun us a =>
    .expectSignThen (Nat.le_succ _) fun c => .pure ?_
  rintro hc ⟨ha, hfirst⟩
  obtain ⟨t', us, rfl, -⟩ := ha.head
  obtain rfl := hfirst t' us rfl
  exact .exprStmt t' c us a ha hc

theorem statement_accepts : Accepts (n + 1) DerivesStmt (statement r) := by
  refine .peekThen fun t => ?_
  split
  · exact .of_accepts ((block_accepts hr).mono (Nat.le_refl _) fun ts a ha => .block ts a ha)
  · exact .of_accepts (conditional_accepts hr)
  · exact .of_accepts (whileLoop_accepts hr)
  · exact .of_accepts (doWhile_accepts hr)
  · exact .of_accepts (forLoop_accepts hr)
  · exact .of_accepts (returnStmt_accepts hr)
  · next hk =>
    refine .advanceThen (Nat.le_succ _) (by simp [hk]) ?_
    exact .expectSignThen (Nat.le_succ _) fun c => .pure fun hc => .breakStmt t c hk hc
  · next hk =>
    refine .advanceThen (Nat.le_succ _) (by simp [hk]) ?_
    exact .expectSignThen (Nat.le_succ _) fun c => .pure fun hc => .continueStmt t c hk hc
  · refine .ite (fun _ => .of_accepts ?_) fun _ => .of_accepts (exprStmt_accepts hr)
    exact (declaration_accepts hr).mono (Nat.le_refl _) fun ts a ha => .declaration ts a ha

/-! ## Programs -/

omit [r.IsForward] hr in
theorem parameter_accepts : Accepts n DerivesParameter parameter := by
  refine .atEach fun ty => .typeThen fun a => .expectThen (Nat.le_succ n) (by simp) fun x => ?_
  have hbracket : Accepts n (fun ts b => (ts = [] ∧ b = false) ∨
      ∃ o, ts = [o] ∧ o.kind = .symbol .openBracket ∧ b = true)
      (accept (.symbol .openBracket)) := by
    refine .peekThen fun o => .ite (fun ho => ?_) fun _ => .of_accepts (.pure (.inl ⟨rfl, rfl⟩))
    exact .advanceThen (Nat.le_succ n) (by simp [ho]) (.pure (.inr ⟨o, rfl, ho, rfl⟩))
  refine hbracket.bind fun us isArray => ?_
  cases isArray with
  | false =>
    refine .pure ?_
    rintro (⟨rfl, -⟩ | ⟨o, -, -, h⟩) hx hty rfl
    · exact .plain ty x hty hx
    · cases h
  | true =>
    refine .expectSignThen (Nat.le_succ n) fun c => .pure ?_
    rintro hc (⟨-, h⟩ | ⟨o, rfl, ho, -⟩) hx hty rfl
    · cases h
    · exact .array ty x o c hty hx ho hc

omit [r.IsForward] hr in
theorem parameters_accepts : Accepts n DerivesParameters (parameters r) := by
  refine .acceptIf (Nat.le_succ n) nofun (fun c hc => .pure (.none c hc)) ?_
  refine (commaSeparated_accepts parameter_accepts _).bind fun us ps =>
    .expectSignThen (Nat.le_succ n) fun c => .pure ?_
  exact fun hc hps => .some us c ps hps hc

theorem function_accepts : Accepts (n + 1) DerivesFunction (function r) := by
  refine .hereThen fun w =>
    .expectWordThen (Nat.le_succ _) (.atEach fun ty => .typeThen fun a => ?_)
  refine .expectThen (Nat.le_succ _) (by simp) fun x => .expectSignThen (Nat.le_succ _) fun o => ?_
  refine parameters_accepts.bind fun us ps => (block_accepts hr).bind fun vs body => .pure ?_
  rintro hbody hps ho hx hty rfl hw
  rw [append_nil]
  exact .mk w ty x o us vs ps body hw hty hx ho hps hbody

theorem items_accepts (k : Nat) : Accepts (n + 1) DerivesItems (items r k) := by
  induction k with
  | zero => exact .usedUp _
  | succ k ih =>
    refine .peekThen fun t => .ite (fun _ => .of_accepts (.pure .nil)) fun _ => ?_
    refine .acceptIf (Nat.le_succ _) nofun (fun hc => ?_) fun _ => .of_accepts ?_
    · exact ih.mono (Nat.le_refl _) fun ts as has => .skip t ts as hc has
    · dsimp only
      split
      · refine (function_accepts hr).bind fun us a => ih.bind fun vs as => .pure fun has ha => ?_
        rw [append_nil]
        exact .function us vs a as ha has
      · refine (statement_accepts hr).bind fun us a => ih.bind fun vs as => .pure fun has ha => ?_
        rw [append_nil]
        exact .stmt us vs a as ha has

end Productions

end Parser

open Stacklet.Parser

theorem Productions.accepts_upTo (n : Nat) : (upTo n).Accept n := by
  induction n with
  | zero =>
    have hnone {D : List Token → Tree → Prop} {x : Parser Tree} [Forward x] : Accepts 0 D x :=
      ⟨.of_forward x, fun _ _ h => absurd h (Nat.not_lt_zero _)⟩
    exact ⟨hnone, hnone, hnone, hnone⟩
  | succ n ih =>
    exact ⟨expression_accepts ih, assignment_accepts ih, unary_accepts ih, statement_accepts ih⟩

variable {tokens : List Token}

theorem derivesItems_of_parse (h : (Tree.parse tokens).2 = #[]) :
    DerivesItems (tokens.takeWhile isBefore) (Tree.parse tokens).1.children := by
  have hends : (State.ofTokens tokens).Ends := rfl
  have hleft : (State.ofTokens tokens).left < tokens.length + 1 :=
    Nat.lt_succ_of_le (takeWhile_sublist isBefore).length_le
  have haccepts := items_accepts (Productions.accepts_upTo tokens.length) (tokens.length + 1)
  obtain ⟨ts, hts, hitems⟩ := haccepts.reads _ hends hleft h
  have hrest : (program (.ofTokens tokens)).2.rest = tokens.dropWhile isBefore := rest_program hends
  have hsplit : ts ++ tokens.dropWhile isBefore = tokens.takeWhile isBefore ++
      tokens.dropWhile isBefore := by
    rw [takeWhile_append_dropWhile, ← hrest]
    exact hts.symm
  rw [← append_cancel_right hsplit]
  exact hitems

theorem parse_of_derivesItems {as : List Tree} (h : DerivesItems (tokens.takeWhile isBefore) as) :
    Tree.parse tokens = (⟨.program, "Program", false, .start, as⟩, #[]) := by
  have hends : nextKind (State.ofTokens tokens).fallback (tokens.dropWhile isBefore) =
      .endOfInput := by
    unfold nextKind
    match hr : tokens.dropWhile isBefore with
    | [] => rfl
    | t :: ts =>
      have ht := head_dropWhile_not isBefore (l := tokens) (by rw [hr]; exact cons_ne_nil _ _)
      simpa [hr, isBefore] using ht
  have hprogram := h.program hends
  rw [takeWhile_append_dropWhile] at hprogram
  have hrun : Tree.parse tokens =
    ((program (.ofTokens tokens)).1, (program (.ofTokens tokens)).2.errors) := rfl
  rw [hrun, show State.ofTokens tokens = .ahead (State.ofTokens tokens).fallback
    tokens from rfl, hprogram]
  rfl

/-- **Tokens are parsed without errors if and only if they are derived**, up to the end of input. -/
theorem parse_eq_empty_iff :
    (Tree.parse tokens).2 = #[] ↔ ∃ as, DerivesItems (tokens.takeWhile isBefore) as := by
  refine ⟨fun h => ⟨_, derivesItems_of_parse h⟩, ?_⟩
  rintro ⟨as, h⟩
  rw [parse_of_derivesItems h]

end Stacklet
