import Stacklet.Pipeline
import Stacklet.Proofs.Parsing.Acceptance
import Stacklet.Proofs.Parsing.Printer
import Stacklet.Proofs.Scanning
/-!
# The tokens of a parsed tree

* `essential`: kinds and texts of tokens, without parentheses and semicolons.
* `Derives.faithful`, `DerivesStmt.faithful`, `DerivesItems.faithful`: what is written of a derived
  tree has the essential tokens that it was derived from, in the same order.
* `essential_write_parse`: nothing of a source that is parsed without errors is lost, repeated or
  moved.
-/

namespace Stacklet

open List

variable {ts : List Token} {as : List Tree} {a : Tree}

/-! ## Essential tokens -/

/-- Whether tokens of this kind leave no trace in a tree: parentheses and semicolons. -/
def Token.Kind.isGrouping : Token.Kind → Bool
  | .symbol .openParen | .symbol .closeParen | .symbol .semicolon => true
  | _ => false

/-- The kinds and texts of all tokens but parentheses and semicolons. -/
def essential (ts : List Token) : List (Token.Kind × String) :=
  (ts.filter fun t => !t.kind.isGrouping).map fun t => (t.kind, t.text)

/-- What a single token contributes. -/
def Token.essence (t : Token) : List (Token.Kind × String) :=
  if t.kind.isGrouping then [] else [(t.kind, t.text)]

section Essential

variable {t t' : Token} {ts us : List Token}

@[simp] theorem essential_nil : essential [] = [] := rfl

@[simp] theorem essential_cons : essential (t :: ts) = t.essence ++ essential ts := by
  rw [essential, filter_cons, Token.essence]
  cases t.kind.isGrouping <;> rfl

@[simp] theorem essential_append : essential (ts ++ us) = essential ts ++ essential us := by
  rw [essential, filter_append, map_append]
  rfl

theorem Token.essence_congr (hk : t.kind = t'.kind) (hx : t.text = t'.text) :
    t.essence = t'.essence := by
  rw [essence, essence, hk, hx]

theorem Token.essence_of_isGrouping (h : t.kind.isGrouping) : t.essence = [] := if_pos h

@[simp] theorem Token.essence_openParen : (ofSymbol .openParen).essence = [] := rfl

@[simp] theorem Token.essence_closeParen : (ofSymbol .closeParen).essence = [] := rfl

@[simp] theorem Token.essence_semicolon : (ofSymbol .semicolon).essence = [] := rfl

theorem essential_enclosed (n : Nat) (ts : List Token) :
    essential (enclosed n ts) = essential ts := by
  induction n with
  | zero => rfl
  | succ n ih => simp [enclosed, ih]

end Essential

/-! ## Spelling -/

/-- A token whose text is that of its sign or word. -/
structure Token.Spelled (t : Token) : Prop where
  symbol : ∀ s, t.kind = .symbol s → t.text = s.spelling
  keyword : ∀ k, t.kind = .keyword k → t.text = k.spelling

def AreSpelled (ts : List Token) : Prop := ∀ t ∈ ts, t.Spelled

section Spelled

variable {t : Token} {ts us : List Token}

@[simp] theorem areSpelled_nil : AreSpelled [] := fun _ h => nomatch h

@[simp] theorem areSpelled_cons : AreSpelled (t :: ts) ↔ t.Spelled ∧ AreSpelled ts :=
  forall_mem_cons

@[simp] theorem areSpelled_append : AreSpelled (ts ++ us) ↔ AreSpelled ts ∧ AreSpelled us :=
  forall_mem_append

theorem Token.Spelled.essence_symbol {s : Symbol} (h : t.Spelled) (hk : t.kind = .symbol s) :
    t.essence = (ofSymbol s).essence :=
  essence_congr hk (h.symbol s hk)

theorem Token.Spelled.essence_keyword {k : Keyword} (h : t.Spelled) (hk : t.kind = .keyword k) :
    t.essence = (ofKeyword k).essence :=
  essence_congr hk (h.keyword k hk)

theorem Symbol.binary?_spelling {s : Symbol} {l : Precedence} (hl : l.isBinary)
    (hs : Precedence.ofSign? s = some l) :
    binary? s.spelling = some s := by
  cases s <;> cases hs <;> first | rfl | cases hl

theorem Cursor.scan_spelled (c : Cursor) : c.scan.1.Spelled := by
  unfold Cursor.scan
  dsimp only
  split
  · exact ⟨fun _ h => (by cases h), fun _ h => (by cases h)⟩
  · unfold Lexeme.ofHead
    split
    · refine ⟨fun s h => ?_, fun k h => ?_⟩
      · dsimp only [Lexeme.word] at h
        split at h <;> cases h
      · dsimp only [Lexeme.word] at h ⊢
        split at h
        · next hk =>
          cases h
          have hfound := find?_some (p := fun k : Keyword => k.spelling == _) hk
          exact (eq_of_beq hfound).symm
        · cases h
    · split
      · exact ⟨fun _ h => (by cases h), fun _ h => (by cases h)⟩
      · split
        · exact ⟨fun _ h => (by cases h), fun _ h => (by cases h)⟩
        · unfold Lexeme.sign
          split
          · exact ⟨fun s h => by cases h; rfl, fun _ h => (by cases h)⟩
          · exact ⟨fun _ h => (by cases h), fun _ h => (by cases h)⟩

theorem Token.scan_spelled (source : String) : AreSpelled (Token.scan source) := by
  have htokens (c : Cursor) : AreSpelled c.tokens := by
    fun_induction Cursor.tokens c with
    | case1 c _ => exact areSpelled_cons.mpr ⟨c.scan_spelled, areSpelled_nil⟩
    | case2 c _ ih => exact areSpelled_cons.mpr ⟨c.scan_spelled, ih⟩
  exact htokens _

end Spelled

/-! ## Expressions -/

open Stacklet.Tree

/-- What is written of the tree has the essential tokens of `ts`. -/
def Faithful (ts : List Token) (a : Tree) : Prop :=
  ∀ (more : List Nat → Nat) (l : Option Precedence), essential (a.write more l) = essential ts

def FaithfulList (ts : List Token) (as : List Tree) : Prop :=
  ∀ (more : List Nat → Nat) (ls : Nat → Option Precedence) (i : Nat),
    essential (separated (writeAll more ls i as)) = essential ts

theorem Faithful.of_none (h : ∀ more, essential (a.write more none) = essential ts) :
    Faithful ts a := by
  intro more l
  rw [write_eq, essential_enclosed]
  exact h more

theorem Faithful.single {t w : Token} (h : ∀ more, a.write more none = [w]) (hk : w.kind = t.kind)
    (hx : w.text = t.text) :
    Faithful [t] a :=
  .of_none fun more => by rw [h, essential_cons, essential_cons, Token.essence_congr hk hx]

namespace FaithfulList

variable {ts us : List Token} {a : Tree} {as : List Tree} {c : Token}

theorem one (h : Faithful ts a) : FaithfulList ts [a] :=
  fun more ls i => h (fun p => more (i :: p)) (ls i)

theorem cons (ha : Faithful ts a) (hc : c.kind = .symbol .comma) (hspell : c.Spelled)
    (has : FaithfulList us as) (hne : as ≠ []) :
    FaithfulList (ts ++ c :: us) (a :: as) := by
  intro more ls i
  obtain ⟨b, bs, rfl⟩ := exists_cons_of_ne_nil hne
  show essential (a.write _ _ ++ .ofSymbol .comma :: separated
    (writeAll more ls (i + 1) (b :: bs))) = _
  simp [ha _ _, has more ls (i + 1), hspell.essence_symbol hc]

end FaithfulList

theorem DerivesList.ne_nil (h : DerivesList ts as) : as ≠ [] := by
  cases h with
  | one => exact cons_ne_nil _ _
  | cons => exact cons_ne_nil _ _

mutual

theorem Derives.faithful {l : Precedence} {ts : List Token} {a : Tree} :
    Derives l ts a → AreSpelled ts → Faithful ts a
  | .tighter _ _ _ _ h, hspell => h.faithful hspell
  | .comma ts us c a b ha hc hb, hspell => .of_none fun more => by
    obtain ⟨hts, hcs, hus⟩ := by simpa using hspell
    show essential (a.write _ _ ++ .ofSymbol .comma :: b.write _ _) = _
    simp [ha.faithful hts _ _, hb.faithful hus _ _, hcs.essence_symbol hc]
  | .assign ts us c a b ha _ hc hb, hspell => .of_none fun more => by
    obtain ⟨hts, hcs, hus⟩ := by simpa using hspell
    show essential (a.write _ _ ++ .ofSymbol .assign :: b.write _ _) = _
    simp [ha.faithful hts _ _, hb.faithful hus _ _, hcs.essence_symbol hc]
  | .binary l ts us op s a b hl ha hk hs hb, hspell => .of_none fun more => by
    obtain ⟨hts, hops, hus⟩ := by simpa using hspell
    have hop : (⟨.symbol ((Symbol.binary? op.text).getD .plus), op.text, .start⟩ : Token).essence =
        op.essence := by
      refine Token.essence_congr ?_ rfl
      rw [hops.symbol s hk, Symbol.binary?_spelling hl hs, hk]
      rfl
    show essential (a.write _ _ ++ ⟨.symbol ((Symbol.binary? op.text).getD .plus), op.text,
      .start⟩ :: b.write _ _) = _
    simp [ha.faithful hts _ _, hb.faithful hus _ _, hop]
  | .unary ts op a hop ha, hspell => .of_none fun more => by
    obtain ⟨hops, hts⟩ := by simpa using hspell
    have hop : (⟨.symbol ((Symbol.unary? op.text).getD .plus), op.text, .start⟩ : Token).essence =
        op.essence := by
      refine Token.essence_congr ?_ rfl
      rcases of_decide_eq_true hop with hk | hk | hk <;> rw [hops.symbol _ hk, hk] <;> decide
    show essential (⟨.symbol ((Symbol.unary? op.text).getD .plus), op.text, .start⟩ ::
      a.write _ _) = _
    simp [ha.faithful hts _ _, hop]
  | .chain _ _ h, hspell => h.faithful hspell
  | .number t hk, _ => .single (fun _ => rfl) hk.symm rfl
  | .string t hk, _ => .single (fun _ => rfl) hk.symm rfl
  | .name t hk, _ => .single (fun _ => rfl) hk.symm rfl
  | .parens ts o c a ho ha hc, hspell => fun more l => by
    obtain ⟨hos, hts, hcs⟩ := by simpa using hspell
    simp [ha.faithful hts _ _, hos.essence_symbol ho, hcs.essence_symbol hc]

theorem DerivesChain.faithful {ts : List Token} {a : Tree} :
    DerivesChain ts a → AreSpelled ts → Faithful ts a
  | .base _ _ h _, hspell => h.faithful hspell
  | .callNone ts o c f hf ho hc, hspell => .of_none fun more => by
    obtain ⟨hts, hos, hcs⟩ := by simpa using hspell
    show essential (f.write _ _ ++ .ofSymbol .openParen :: [.ofSymbol .closeParen]) = _
    simp [hf.faithful hts _ _, hos.essence_symbol ho, hcs.essence_symbol hc]
  | .call ts us o c f args hf ho hargs hc, hspell => .of_none fun more => by
    obtain ⟨hts, hos, hus, hcs⟩ := by simpa using hspell
    show essential (f.write _ _ ++ .ofSymbol .openParen ::
      (separated (writeAll _ _ 1 args) ++ [.ofSymbol .closeParen])) = _
    simp [hf.faithful hts _ _, hargs.faithful hus _ _ 1, hos.essence_symbol ho,
      hcs.essence_symbol hc]
  | .index ts us o c a i ha ho hi hc, hspell => .of_none fun more => by
    obtain ⟨hts, hos, hus, hcs⟩ := by simpa using hspell
    show essential (a.write _ _ ++ .ofSymbol .openBracket ::
      (i.write _ _ ++ [.ofSymbol .closeBracket])) = _
    simp [ha.faithful hts _ _, hi.faithful hus _ _, hos.essence_symbol ho, hcs.essence_symbol hc]

theorem DerivesList.faithful {ts : List Token} {as : List Tree} :
    DerivesList ts as → AreSpelled ts → FaithfulList ts as
  | .one _ _ h, hspell => .one (h.faithful hspell)
  | .cons ts us c a as ha hc has, hspell => by
    obtain ⟨hts, hcs, hus⟩ := by simpa using hspell
    exact .cons (ha.faithful hts) hc hcs (has.faithful hus) has.ne_nil

end

/-! ## Statements -/

theorem faithful_typeName {ty : Token} (hty : ty.kind.isType) (hspell : ty.Spelled) :
    Faithful [ty] (Parser.leaf .typeName ty) := by
  obtain ⟨k, hk⟩ : ∃ k, ty.kind = .keyword k := by
    match hkind : ty.kind, hty with
    | .keyword k, _ => exact ⟨k, rfl⟩
  refine .single (fun _ => rfl) ?_ rfl
  show Token.Kind.keyword ((Keyword.ofSpelling? ty.text).getD .intKw) = ty.kind
  rw [hspell.keyword k hk, Keyword.ofSpelling?_spelling, hk]
  rfl

theorem Separated.ne_nil {D : List Token → Tree → Prop} (h : Separated D ts as) : as ≠ [] := by
  cases h with
  | one => exact cons_ne_nil _ _
  | cons => exact cons_ne_nil _ _

theorem Separated.faithful {D : List Token → Tree → Prop} (h : Separated D ts as)
    (hD : ∀ {ts a}, D ts a → AreSpelled ts → Faithful ts a) (hspell : AreSpelled ts) :
    FaithfulList ts as := by
  induction h with
  | one ts a h => exact .one (hD h hspell)
  | cons ts us c a as h hc has ih =>
    obtain ⟨hts, hcs, hus⟩ := by simpa using hspell
    exact .cons (hD h hts) hc hcs (ih hus) has.ne_nil

theorem essence_name {x : Token} (hx : x.kind = .name) :
    x.essence = (Token.ofName x.text).essence := Token.essence_congr hx rfl

theorem DerivesDeclarator.faithful (h : DerivesDeclarator ts a) (hspell : AreSpelled ts) :
    Faithful ts a := by
  refine .of_none fun more => ?_
  cases h with
  | plain x hx =>
    show essential [.ofName x.text] = _
    simp [essence_name hx]
  | initial x c ts a hx hc ha =>
    obtain ⟨-, hcs, hts⟩ := by simpa using hspell
    show essential (.ofName x.text :: .ofSymbol .assign :: a.write _ _) = _
    simp [ha.faithful hts _ _, hcs.essence_symbol hc, essence_name hx]
  | array x o c ts a hx ho ha hc =>
    obtain ⟨-, hos, hts, hcs⟩ := by simpa using hspell
    show essential (.ofName x.text :: .ofSymbol .openBracket ::
      (a.write _ _ ++ [.ofSymbol .closeBracket])) = _
    simp [ha.faithful hts _ _, hos.essence_symbol ho, hcs.essence_symbol hc, essence_name hx]

theorem DerivesDeclaration.faithful (h : DerivesDeclaration ts a) (hspell : AreSpelled ts) :
    Faithful ts a := by
  refine .of_none fun more => ?_
  obtain ⟨ty, c, ts, ds, hty, hds, hc⟩ := h
  obtain ⟨htys, hts, hcs⟩ := by simpa using hspell
  have htype := faithful_typeName hty htys
  show essential ((Parser.leaf .typeName ty).write _ _ ++
    (separated (writeAll _ _ 1 ds) ++ [.ofSymbol .semicolon])) = _
  simp [htype _ _, hds.faithful DerivesDeclarator.faithful hts _ _ 1, hcs.essence_symbol hc]

theorem DerivesFirst.faithful (h : DerivesFirst ts a) (hspell : AreSpelled ts)
    (more : List Nat → Nat) :
    essential (if (a.write more none).isEmpty then [.ofSymbol .semicolon] else a.write more none) =
      essential ts := by
  have hsemi {us : List Token} (hus : essential us = essential ts) :
      essential (if us.isEmpty then [.ofSymbol .semicolon] else us) = essential ts := by
    split
    · next hnil => rw [← hus, isEmpty_iff.mp hnil]; rfl
    · exact hus
  refine hsemi ?_
  cases h with
  | omitted c hc => simp [Token.essence_of_isGrouping (t := c) (by rw [hc]; rfl)]; rfl
  | declaration _ _ h => exact h.faithful hspell _ _
  | expr t c ts a ha hc =>
    obtain ⟨hts, hts', hcs⟩ := by simpa using hspell
    show essential (a.write _ _ ++ [.ofSymbol .semicolon]) = _
    simp [ha.faithful (areSpelled_cons.mpr ⟨hts, hts'⟩) _ _, hcs.essence_symbol hc]

theorem DerivesOptional.faithful {c : Token} (h : DerivesOptional c ts a) (hspell : AreSpelled ts) :
    Faithful ts a := by
  cases h with
  | omitted => exact .of_none fun _ => rfl
  | expr _ _ h => exact h.faithful hspell

mutual

theorem DerivesStmt.faithful {ts : List Token} {a : Tree} :
    DerivesStmt ts a → AreSpelled ts → Faithful ts a
  | .block _ _ h, hspell => h.faithful hspell
  | .declaration _ _ h, hspell => h.faithful hspell
  | .exprStmt t c ts a ha hc, hspell => .of_none fun more => by
    obtain ⟨hts, hts', hcs⟩ := by simpa using hspell
    show essential (a.write _ _ ++ [.ofSymbol .semicolon]) = _
    simp [ha.faithful (areSpelled_cons.mpr ⟨hts, hts'⟩) _ _, hcs.essence_symbol hc]
  | .returnNothing w c hw hc, hspell => .of_none fun more => by
    obtain ⟨hws, hcs⟩ := by simpa using hspell
    show essential [.ofKeyword .returnKw, .ofSymbol .semicolon] = _
    simp [hws.essence_keyword hw, hcs.essence_symbol hc]
  | .returnValue w c ts a hw ha hc, hspell => .of_none fun more => by
    obtain ⟨hws, hts, hcs⟩ := by simpa using hspell
    show essential (.ofKeyword .returnKw :: ((a.write _ _ ++ []) ++ [.ofSymbol .semicolon])) = _
    simp [ha.faithful hts _ _, hws.essence_keyword hw, hcs.essence_symbol hc]
  | .breakStmt w c hw hc, hspell => .of_none fun more => by
    obtain ⟨hws, hcs⟩ := by simpa using hspell
    show essential [.ofKeyword .breakKw, .ofSymbol .semicolon] = _
    simp [hws.essence_keyword hw, hcs.essence_symbol hc]
  | .continueStmt w c hw hc, hspell => .of_none fun more => by
    obtain ⟨hws, hcs⟩ := by simpa using hspell
    show essential [.ofKeyword .continueKw, .ofSymbol .semicolon] = _
    simp [hws.essence_keyword hw, hcs.essence_symbol hc]
  | .conditional w o c ts us vs a body branches hw ho ha hc hbody hbranches, hspell =>
    .of_none fun more => by
    obtain ⟨hws, hos, hts, hcs, hus, hvs⟩ := by simpa using hspell
    show essential (.ofKeyword .ifKw :: inParens (a.write _ _)
      (body.write _ _ ++ (writeAll _ _ 2 branches).flatMap fun ts => .ofKeyword .elseKw :: ts)) = _
    simp [inParens, ha.faithful hts _ _, hbody.faithful hus _ _, hbranches.faithful hvs _ _ 2,
      hws.essence_keyword hw, hos.essence_symbol ho, hcs.essence_symbol hc]
  | .whileLoop w o c ts us a body hw ho ha hc hbody, hspell => .of_none fun more => by
    obtain ⟨hws, hos, hts, hcs, hus⟩ := by simpa using hspell
    show essential (.ofKeyword .whileKw :: inParens (a.write _ _) (body.write _ _)) = _
    simp [inParens, ha.faithful hts _ _, hbody.faithful hus _ _, hws.essence_keyword hw,
      hos.essence_symbol ho, hcs.essence_symbol hc]
  | .doWhile w v o c z ts us body a hw hbody hv ho ha hc hz, hspell => .of_none fun more => by
    obtain ⟨hws, hus, hvs, hos, hts, hcs, hzs⟩ := by simpa using hspell
    show essential (.ofKeyword .doKw ::
      (body.write _ _ ++ .ofKeyword .whileKw :: inParens (a.write _ _) [.ofSymbol .semicolon])) = _
    simp [inParens, ha.faithful hts _ _, hbody.faithful hus _ _, hws.essence_keyword hw,
      hvs.essence_keyword hv, hos.essence_symbol ho, hcs.essence_symbol hc, hzs.essence_symbol hz]
  | .forLoop w o z c ts us vs ws first a step body hw ho hfirst ha hz hstep hc hbody, hspell =>
    .of_none fun more => by
    obtain ⟨hw', hos, hts, hus, hzs, hvs, hcs, hws⟩ := by simpa using hspell
    show essential (.ofKeyword .forKw :: .ofSymbol .openParen ::
      ((if (first.write (fun p => more (0 :: p)) none).isEmpty then [.ofSymbol .semicolon]
        else first.write (fun p => more (0 :: p)) none) ++
        (a.write _ _ ++ .ofSymbol .semicolon ::
          (step.write _ _ ++ .ofSymbol .closeParen :: body.write _ _)))) = _
    rw [essential_cons, essential_cons, essential_append, hfirst.faithful hts]
    simp [ha.faithful hus _ _, hstep.faithful hvs _ _, hbody.faithful hws _ _,
      hw'.essence_keyword hw, hos.essence_symbol ho, hcs.essence_symbol hc, hzs.essence_symbol hz]

theorem DerivesBlock.faithful {ts : List Token} {a : Tree} :
    DerivesBlock ts a → AreSpelled ts → Faithful ts a
  | .mk o c ts as ho has hc, hspell => .of_none fun more => by
    obtain ⟨hos, hts, hcs⟩ := by simpa using hspell
    show essential (.ofSymbol .openBrace ::
      ((writeAll _ _ 0 as).flatten ++ [.ofSymbol .closeBrace])) = _
    simp [has.faithful hts _ _ 0, hos.essence_symbol ho, hcs.essence_symbol hc]

theorem DerivesStmts.faithful {ts : List Token} {as : List Tree} :
    DerivesStmts ts as → AreSpelled ts →
    ∀ (more : List Nat → Nat) (ls : Nat → Option Precedence) (i : Nat),
      essential (writeAll more ls i as).flatten = essential ts
  | .nil, _, _, _, _ => rfl
  | .skip c ts as hc has, hspell, more, ls, i => by
    obtain ⟨hcs, hts⟩ := by simpa using hspell
    simp [has.faithful hts more ls i, hcs.essence_symbol hc]
  | .cons ts us a as ha has, hspell, more, ls, i => by
    obtain ⟨hts, hus⟩ := by simpa using hspell
    simp [writeAll, ha.faithful hts _ _, has.faithful hus more ls (i + 1)]

theorem DerivesBranches.faithful {ts : List Token} {as : List Tree} :
    DerivesBranches ts as → AreSpelled ts →
    ∀ (more : List Nat → Nat) (ls : Nat → Option Precedence) (i : Nat),
      essential ((writeAll more ls i as).flatMap fun us => .ofKeyword .elseKw :: us) = essential ts
  | .nil, _, _, _, _ => rfl
  | .last w ts body hw hbody, hspell, more, ls, i => by
    obtain ⟨hws, hts⟩ := by simpa using hspell
    simp [writeAll, hbody.faithful hts _ _, hws.essence_keyword hw]
  | .elseIf w v o c ts us vs a body branches hw hv ho ha hc hbody
      hbranches, hspell, more, ls, i => by
    obtain ⟨hws, hvs, hos, hts, hcs, hus, hbs⟩ := by simpa using hspell
    have hbranch : Faithful (v :: o :: (ts ++ c :: us))
        ⟨.elseIf, "ElseIf", false, w.loc, [a, body]⟩ :=
      .of_none fun more => by
        show essential (.ofKeyword .ifKw :: inParens (a.write _ _) (body.write _ _)) = _
        simp [inParens, ha.faithful hts _ _, hbody.faithful hus _ _, hvs.essence_keyword hv,
          hos.essence_symbol ho, hcs.essence_symbol hc]
    have hmore := hbranches.faithful hbs more ls (i + 1)
    rw [writeAll, flatMap_cons, essential_append, essential_cons, hbranch, hmore]
    simp [hws.essence_keyword hw]

end

/-! ## Programs -/

theorem DerivesParameter.faithful (h : DerivesParameter ts a) (hspell : AreSpelled ts) :
    Faithful ts a := by
  refine .of_none fun more => ?_
  cases h with
  | plain ty x hty hx =>
    obtain ⟨htys, -⟩ := by simpa using hspell
    show essential ((Parser.leaf .typeName ty).write _ _ ++ [.ofName x.text]) = _
    simp [faithful_typeName hty htys _ _, essence_name hx]
  | array ty x o c hty hx ho hc =>
    obtain ⟨htys, -, hos, hcs⟩ := by simpa using hspell
    show essential ((Parser.leaf .typeName ty).write _ _ ++ .ofName x.text ::
      [.ofSymbol .openBracket, .ofSymbol .closeBracket]) = _
    simp [faithful_typeName hty htys _ _, essence_name hx, hos.essence_symbol ho,
      hcs.essence_symbol hc]

theorem DerivesParameters.faithful {ps : List Tree} (h : DerivesParameters ts ps)
    (hspell : AreSpelled ts) :
    FaithfulList ts ps := by
  cases h with
  | none c hc =>
    intro _ _ _
    simp [Token.essence_of_isGrouping (t := c) (by rw [hc]; rfl)]
    rfl
  | some ts c ps hps hc =>
    intro more ls i
    obtain ⟨hts, hcs⟩ := by simpa using hspell
    simp [hps.faithful DerivesParameter.faithful hts more ls i, hcs.essence_symbol hc]

theorem DerivesFunction.faithful (h : DerivesFunction ts a) (hspell : AreSpelled ts) :
    Faithful ts a := by
  refine .of_none fun more => ?_
  obtain ⟨w, ty, x, o, ts, us, ps, body, hw, hty, hx, ho, hps, hbody⟩ := h
  obtain ⟨hws, htys, -, hos, hts, hus⟩ := by simpa using hspell
  have htype := faithful_typeName hty htys
  have hparams := hps.faithful hts
  show essential (_ :: ((Parser.leaf .typeName ty).write _ none ++
    _ :: inParens (separated (writeAll _ _ 1 (ps ++ [body])).dropLast)
      ((writeAll _ _ 1 (ps ++ [body])).getLastD []))) = _
  rw [writeAll_append, writeAll, writeAll, dropLast_concat, getLastD_concat]
  simp [inParens, htype _ _, hparams _ _ 1, hbody.faithful hus _ _, hws.essence_keyword hw,
    hos.essence_symbol ho, essence_name hx]

theorem DerivesItems.faithful (h : DerivesItems ts as) (hspell : AreSpelled ts)
    (more : List Nat → Nat) (ls : Nat → Option Precedence) (i : Nat) :
    essential (writeAll more ls i as).flatten = essential ts := by
  induction h generalizing i with
  | nil => rfl
  | skip c ts as hc _ ih =>
    obtain ⟨hcs, hts⟩ := by simpa using hspell
    simp [ih hts i, hcs.essence_symbol hc]
  | function ts us a as ha _ ih =>
    obtain ⟨hts, hus⟩ := by simpa using hspell
    simp [writeAll, ha.faithful hts _ _, ih hus (i + 1)]
  | stmt ts us a as ha _ ih =>
    obtain ⟨hts, hus⟩ := by simpa using hspell
    simp [writeAll, ha.faithful hts _ _, ih hus (i + 1)]

/-- **Parsing without errors loses nothing.** What is written of the tree has the tokens of the
source, in their order, but for parentheses and semicolons. -/
theorem essential_write_parse {source : String} (h : (parse source).2 = #[])
    (more : List Nat → Nat) :
    essential ((parse source).1.write more none) =
      essential ((Token.scan source).takeWhile Parser.isBefore) := by
  have hspell : AreSpelled ((Token.scan source).takeWhile Parser.isBefore) := fun t ht =>
    Token.scan_spelled source t ((List.takeWhile_sublist _).subset ht)
  exact (derivesItems_of_parse h).faithful hspell more _ 0

theorem nested_essential_write : (parse nested).2 = #[] ∧
    essential ((parse nested).1.write spare none) =
      essential ((Token.scan nested).takeWhile Parser.isBefore) := by
  have herrors : (parse nested).2 = #[] := by
    rw [parse_ofList nested rfl]
    decide +kernel
  exact ⟨herrors, essential_write_parse herrors spare⟩

end Stacklet
