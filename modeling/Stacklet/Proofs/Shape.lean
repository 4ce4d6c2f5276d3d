import Stacklet.Token.Scan
import Stacklet.Tree.Parse
/-!
# The shape of parsed trees

* `IsExpr`, `IsStmt`, `IsFunction`, `IsItem`: which nodes stand where in a tree. Names have texts in
  `N`, and types texts in `T`.
* `Parser.Yields`: what a parser returns, if the tokens that are left have such texts.
* `parse_isItem`: every list of tokens gives a tree of this shape, also where there are errors in
  it.
-/

namespace Stacklet

open List

theorem Tree.induction {P : Tree → Prop} (h : ∀ t : Tree, (∀ c ∈ t.children, P c) → P t)
    (t : Tree) : P t :=
  h t fun c _ => Tree.induction h c
termination_by sizeOf t
decreasing_by
  have := sizeOf_lt_of_mem ‹c ∈ t.children›
  cases t
  simp only [Tree.mk.sizeOf_spec] at this ⊢
  omega

variable (N T : String → Prop)

/-- What calls and indices may stand behind. -/
def isSuffixable : Tree.Kind → Bool
  | .identifier | .call | .index => true
  | _ => false

mutual

inductive IsExpr : Tree → Prop
  | number (text : String) (loc : Loc) : IsExpr { kind := .number, text, loc }
  | string (text : String) (loc : Loc) : IsExpr { kind := .string, text, loc }
  | identifier (x : String) (loc : Loc) : N x → IsExpr { kind := .identifier, text := x, loc }
  | unary (op : String) (loc : Loc) (e : Tree) : IsExpr e →
    IsExpr { kind := .unary, text := op, loc, children := [e] }
  | binary (op : String) (loc : Loc) (l r : Tree) : IsExpr l → IsExpr r →
    IsExpr { kind := .binary, text := op, loc, children := [l, r] }
  | comma (loc : Loc) (l r : Tree) : IsExpr l → IsExpr r →
    IsExpr { kind := .comma, text := ",", loc, children := [l, r] }
  | assign (loc : Loc) (target value : Tree) : IsExpr target → IsExpr value →
    IsExpr { kind := .assign, text := "=", loc, children := [target, value] }
  | call (loc : Loc) (f : Tree) (args : List Tree) : IsExpr f → isSuffixable f.kind →
      AreExprs args →
    IsExpr { kind := .call, text := "Call", loc, children := f :: args }
  | index (loc : Loc) (base i : Tree) : IsExpr base → isSuffixable base.kind → IsExpr i →
    IsExpr { kind := .index, text := "Index", loc, children := [base, i] }

inductive AreExprs : List Tree → Prop
  | nil : AreExprs []
  | cons (t : Tree) (ts : List Tree) : IsExpr t → AreExprs ts → AreExprs (t :: ts)

end

inductive IsType : Tree → Prop
  | mk (text : String) (loc : Loc) : T text → IsType { kind := .typeName, text, loc }

/-- A declared name, with an initial value or a size. -/
inductive IsDeclarator : Tree → Prop
  | plain (x : String) (loc : Loc) : N x → IsDeclarator { kind := .declarator, text := x, loc }
  | initial (x : String) (loc : Loc) (e : Tree) : N x → IsExpr N e →
    IsDeclarator { kind := .declarator, text := x, loc, children := [e] }
  | array (x : String) (loc : Loc) (e : Tree) : N x → IsExpr N e →
    IsDeclarator { kind := .declarator, text := x, isArray := true, loc, children := [e] }

inductive IsDeclaration : Tree → Prop
  | mk (loc : Loc) (ty d : Tree) (ds : List Tree) : IsType T ty → IsDeclarator N d →
    (∀ d ∈ ds, IsDeclarator N d) →
    IsDeclaration { kind := .declaration, text := "VarDeclList", loc, children := ty :: d :: ds }

/-- The first part of the header of a `for` loop. -/
inductive IsFirst : Tree → Prop
  | omitted (loc : Loc) : IsFirst (.omitted loc)
  | declaration (t : Tree) : IsDeclaration N T t → IsFirst t
  | expr (loc : Loc) (e : Tree) : IsExpr N e →
    IsFirst { kind := .exprStmt, text := "ExprStmt", loc, children := [e] }

/-- An expression that may be left out. -/
inductive IsOptional : Tree → Prop
  | omitted (loc : Loc) : IsOptional (.omitted loc)
  | expr (e : Tree) : IsExpr N e → IsOptional e

mutual

inductive IsStmt : Tree → Prop
  | block (t : Tree) : IsBlock t → IsStmt t
  | declaration (t : Tree) : IsDeclaration N T t → IsStmt t
  | exprStmt (loc : Loc) (e : Tree) : IsExpr N e →
    IsStmt { kind := .exprStmt, text := "ExprStmt", loc, children := [e] }
  | returnNothing (loc : Loc) : IsStmt { kind := .returnStmt, text := "Return", loc }
  | returnValue (loc : Loc) (e : Tree) : IsExpr N e →
    IsStmt { kind := .returnStmt, text := "Return", loc, children := [e] }
  | breakStmt (loc : Loc) : IsStmt { kind := .breakStmt, text := "Break", loc }
  | continueStmt (loc : Loc) : IsStmt { kind := .continueStmt, text := "Continue", loc }
  | conditional (loc : Loc) (c body : Tree) (rest : List Tree) : IsExpr N c → IsBlock body →
    AreBranches rest → IsStmt { kind := .conditional, text := "If", loc,
                                children := c :: body :: rest }
  | whileLoop (loc : Loc) (c body : Tree) : IsExpr N c → IsBlock body →
    IsStmt { kind := .whileLoop, text := "While", loc, children := [c, body] }
  | doWhile (loc : Loc) (body c : Tree) : IsBlock body → IsExpr N c →
    IsStmt { kind := .doWhile, text := "DoWhile", loc, children := [body, c] }
  | forLoop (loc : Loc) (first c step body : Tree) : IsFirst N T first → IsOptional N c →
    IsOptional N step → IsBlock body →
    IsStmt { kind := .forLoop, text := "For", loc, children := [first, c, step, body] }

inductive IsBlock : Tree → Prop
  | mk (loc : Loc) (ts : List Tree) : AreStmts ts →
    IsBlock { kind := .block, text := "Block", loc, children := ts }

inductive AreStmts : List Tree → Prop
  | nil : AreStmts []
  | cons (t : Tree) (ts : List Tree) : IsStmt t → AreStmts ts → AreStmts (t :: ts)

/-- What stands behind the first block of a conditional. -/
inductive AreBranches : List Tree → Prop
  | nil : AreBranches []
  | last (body : Tree) : IsBlock body → AreBranches [body]
  | elseIf (loc : Loc) (c body : Tree) (ts : List Tree) : IsExpr N c → IsBlock body →
      AreBranches ts →
    AreBranches ({ kind := .elseIf, text := "ElseIf", loc, children := [c, body] } :: ts)

end

inductive IsParameter : Tree → Prop
  | mk (x : String) (isArray : Bool) (loc : Loc) (ty : Tree) : N x → IsType T ty →
    IsParameter { kind := .parameter, text := x, isArray, loc, children := [ty] }

inductive IsFunction : Tree → Prop
  | mk (f : String) (loc : Loc) (ty : Tree) (ps : List Tree) (body : Tree) : N f → IsType T ty →
    (∀ p ∈ ps, IsParameter N T p) → IsBlock N T body →
    IsFunction { kind := .function, text := f, loc, children := ty :: (ps ++ [body]) }

inductive IsItem : Tree → Prop
  | function (t : Tree) : IsFunction N T t → IsItem t
  | stmt (t : Tree) : IsStmt N T t → IsItem t

variable {N T} in
theorem IsBlock.kind_eq {t : Tree} (h : IsBlock N T t) : t.kind = .block := by
  obtain ⟨⟩ := h
  rfl

variable {N T} in
theorem IsParameter.kind_eq {t : Tree} (h : IsParameter N T t) : t.kind = .parameter := by
  obtain ⟨⟩ := h
  rfl

/-! ## What parsers return -/

/-- A token whose text is fit for a name or a type, if it is one. -/
structure Token.Fits (t : Token) : Prop where
  name : t.kind = .name → N t.text
  type : t.kind.isType → T t.text

/-- The texts that stand in where a name or type is missing are fit too. -/
structure StandIns : Prop where
  name : N ""
  type : T "int"

/-- The tokens that are left fit, and none is found at the end. -/
structure Parser.State.Fits (s : Parser.State) : Prop where
  rest : ∀ t ∈ s.rest, t.Fits N T
  fallback_kind : s.fallback.kind = .endOfInput
  fallback_text : s.fallback.text = ""

namespace Parser

variable {N T}

theorem State.Fits.peek {s : State} (h : s.Fits N T) : s.peek.Fits N T := by
  unfold State.peek
  cases hr : s.rest with
  | nil =>
    rw [headD_nil]
    refine ⟨fun hname => ?_, fun htype => ?_⟩
    · rw [h.fallback_kind] at hname
      cases hname
    · rw [h.fallback_kind] at htype
      cases htype
  | cons t ts => exact h.rest t (by rw [hr]; exact mem_cons_self ..)

theorem State.Fits.tail {s : State} (h : s.Fits N T) : { s with rest := s.rest.tail }.Fits N T :=
  ⟨fun t ht => h.rest t (mem_of_mem_tail ht), h.fallback_kind, h.fallback_text⟩

variable {α β : Type}

variable (N T) in
/-- A parser that returns something with the property `Q` if the tokens that are left fit. -/
def Yields (Q : α → Prop) (x : Parser α) : Prop :=
  ∀ s : State, s.Fits N T → Q (x s).1 ∧ (x s).2.Fits N T

namespace Yields

variable {P Q : α → Prop} {R : β → Prop} {x : Parser α} {f : α → Parser β}

theorem pure {a : α} (h : Q a) : Yields N T Q (Pure.pure a : Parser α) := fun _ hs => ⟨h, hs⟩

theorem bind (hx : Yields N T P x) (hf : ∀ a, P a → Yields N T R (f a)) : Yields N T R (x >>= f) :=
  fun s hs =>
  have h := hx s hs
  hf (x s).1 h.1 (x s).2 h.2

theorem mono (hx : Yields N T P x) (h : ∀ a, P a → Q a) : Yields N T Q x := fun s hs =>
  ⟨h _ (hx s hs).1, (hx s hs).2⟩

theorem andThen {x : Parser Unit} {y : Parser β} (hx : Yields N T (fun _ => True) x)
    (hy : Yields N T R y) :
    Yields N T R (x >>= fun _ => y) := hx.bind fun _ _ => hy

end Yields

theorem peek_yields : Yields N T (Token.Fits N T) peek := fun _ hs => ⟨hs.peek, hs⟩

theorem here_yields : Yields N T (fun _ => True) here := peek_yields.bind fun _ _ => .pure trivial

theorem advance_yields : Yields N T (Token.Fits N T) advance := fun _ hs => ⟨hs.peek, hs.tail⟩

theorem report_yields (e : SyntaxError) : Yields N T (fun _ => True) (report e) := fun _ hs =>
  ⟨trivial, hs.rest, hs.fallback_kind, hs.fallback_text⟩

theorem usedUp_yields {a : α} {Q : α → Prop} (h : Q a) : Yields N T Q (usedUp a) :=
  .andThen (report_yields _) (.pure h)

theorem accept_yields (k : Token.Kind) : Yields N T (fun _ => True) (accept k) := by
  refine peek_yields.bind fun t _ => ?_
  split
  · exact advance_yields.bind fun _ _ => .pure trivial
  · exact .pure trivial

theorem expect_yields (k : Token.Kind) (w : Wanted) :
    Yields N T (fun t => (t.kind = k ∧ t.Fits N T) ∨ t.text = "") (expect k w) := by
  intro s hs
  have happ : expect k w s = (if s.peek.kind = k then advance
      else if s.peek.kind = .endOfInput then do
        report (.missing w)
        return (← get).fallback
      else do
        report (.misplaced w s.peek.text)
        let _ ← advance
        return ⟨.unknown, "", s.peek.loc⟩) s := rfl
  rw [happ]
  split
  · next hk => exact ⟨.inl ⟨hk, hs.peek⟩, hs.tail⟩
  · split
    · exact ⟨.inr hs.fallback_text, hs.rest, hs.fallback_kind, hs.fallback_text⟩
    · exact ⟨.inr rfl, hs.tail.rest, hs.fallback_kind, hs.fallback_text⟩

theorem Yields.signThen {c : Symbol} {w : Wanted} {y : Parser α} (h : Yields N T Q y) :
    Yields N T Q (expectSign c w >>= fun _ => y) :=
  fun s hs => h _ (expect_yields (.symbol c) w s hs).2

theorem Yields.wordThen {k : Keyword} {w : Wanted} {y : Parser α} (h : Yields N T Q y) :
    Yields N T Q (expectWord k w >>= fun _ => y) :=
  fun s hs => h _ (expect_yields (.keyword k) w s hs).2

theorem expectName_yields (h : StandIns N T) (w : Wanted) :
    Yields N T (fun t => N t.text) (expect .name w) := by
  refine (expect_yields .name w).mono fun t ht => ?_
  rcases ht with ⟨hk, hfits⟩ | htext
  · exact hfits.name hk
  · rw [htext]
    exact h.name

theorem typeName_yields (h : StandIns N T) (w : Wanted) : Yields N T (IsType T) (typeName w) := by
  refine peek_yields.bind fun t ht => ?_
  split
  · next hk => exact advance_yields.bind fun _ _ => .pure (.mk t.text t.loc (ht.type hk))
  · exact .andThen (report_yields _) (.pure (.mk "int" t.loc h.type))

section Lists

variable {item : Parser Tree} {P : Tree → Prop} (hitem : Yields N T P item)

include hitem

theorem commaTail_yields (n : Nat) : Yields N T (fun ts => ∀ t ∈ ts, P t) (commaTail item n) := by
  induction n with
  | zero => exact usedUp_yields fun _ h => absurd h not_mem_nil
  | succ n ih =>
    refine (accept_yields _).bind fun b _ => ?_
    split
    · refine hitem.bind fun t ht => ih.bind fun ts hts => .pure ?_
      exact forall_mem_cons.mpr ⟨ht, hts⟩
    · exact .pure fun _ h => absurd h not_mem_nil

theorem commaSeparated_yields (n : Nat) :
    Yields N T (fun ts => ∃ d ds, ts = d :: ds ∧ P d ∧ ∀ t ∈ ds, P t) (commaSeparated n item) :=
  hitem.bind fun d hd => (commaTail_yields hitem (n + 1)).bind fun ds hds =>
    .pure ⟨d, ds, rfl, hd, hds⟩

end Lists

/-! ## Expressions -/

variable (N T) in
/-- Productions that return expressions and statements. The ones that are stuck are given no tokens
to make statements of. -/
structure Sound (r : Productions) : Prop where
  expression : Yields N T (IsExpr N) r.expression
  assignment : Yields N T (IsExpr N) r.assignment
  unary : Yields N T (IsExpr N) r.unary
  statement : Yields N T (IsStmt N T) r.statement

theorem areExprs_of_forall {ts : List Tree} (h : ∀ t ∈ ts, IsExpr N t) : AreExprs N ts := by
  induction ts with
  | nil => exact .nil
  | cons t ts ih =>
    obtain ⟨ht, hts⟩ := forall_mem_cons.mp h
    exact .cons t ts ht (ih hts)

section Expressions

variable {r : Productions} (hr : Sound N T r)

include hr

theorem primary_yields : Yields N T (IsExpr N) (primary r) := by
  refine peek_yields.bind fun t ht => ?_
  split
  · exact advance_yields.bind fun _ _ => .pure (.number t.text t.loc)
  · exact advance_yields.bind fun _ _ => .pure (.string t.text t.loc)
  · next hk => exact advance_yields.bind fun _ _ => .pure (.identifier t.text t.loc (ht.name hk))
  · refine advance_yields.bind fun _ _ => hr.expression.bind fun e he => ?_
    exact .signThen (.pure he)
  · exact .andThen (report_yields _) (.pure (.number "0" t.loc))
  · exact .andThen (report_yields _) (advance_yields.bind fun _ _ => .pure (.number "0" t.loc))

theorem arguments_yields : Yields N T (AreExprs N) (arguments r) := by
  refine (accept_yields _).bind fun b _ => ?_
  split
  · exact .pure .nil
  · refine (commaSeparated_yields hr.assignment r.bound).bind fun args hargs => ?_
    refine .signThen (.pure ?_)
    obtain ⟨a, as, rfl, ha, has⟩ := hargs
    exact .cons a as ha (areExprs_of_forall has)

theorem suffixes_yields (n : Nat) (base : Tree) (hbase : IsExpr N base)
    (hs : isSuffixable base.kind) :
    Yields N T (IsExpr N) (suffixes r n base) := by
  induction n generalizing base with
  | zero => exact usedUp_yields hbase
  | succ n ih =>
    refine (accept_yields _).bind fun b _ => ?_
    split
    · refine (arguments_yields hr).bind fun args hargs => ?_
      exact ih _ (.call base.loc base args hbase hs hargs) rfl
    · refine (accept_yields _).bind fun b _ => ?_
      split
      · refine hr.expression.bind fun i hi => .signThen ?_
        exact ih _ (.index base.loc base i hbase hs hi) rfl
      · exact .pure hbase

theorem suffixed_yields : Yields N T (IsExpr N) (suffixed r) := by
  refine (primary_yields hr).bind fun base hbase => ?_
  split
  · next hk =>
    refine suffixes_yields hr (r.bound + 1) base hbase ?_
    rw [hk]
    rfl
  · exact .pure hbase

theorem unary_yields : Yields N T (IsExpr N) (unary r) := by
  refine peek_yields.bind fun t _ => ?_
  have hsign : Yields N T (IsExpr N) (do
      let _ ← advance
      let operand ← r.unary
      return ⟨.unary, t.text, false, t.loc, [operand]⟩) :=
    advance_yields.bind fun _ _ => hr.unary.bind fun e he => .pure (.unary t.text t.loc e he)
  split
  · exact hsign
  · exact hsign
  · exact hsign
  · exact suffixed_yields hr

omit hr in
theorem operatorTail_yields {operand : Parser Tree} (ho : Yields N T (IsExpr N) operand)
    (ops : List Symbol) (n : Nat) (left : Tree) (hl : IsExpr N left) :
    Yields N T (IsExpr N) (operatorTail ops operand n left) := by
  induction n generalizing left with
  | zero => exact usedUp_yields hl
  | succ n ih =>
    refine peek_yields.bind fun t _ => ?_
    split
    · refine advance_yields.bind fun _ _ => ho.bind fun right hright => ?_
      exact ih _ (.binary t.text left.loc left right hl hright)
    · exact .pure hl

omit hr in
theorem operatorLevel_yields {operand : Parser Tree} (ho : Yields N T (IsExpr N) operand)
    (ops : List Symbol) :
    Yields N T (IsExpr N) (operatorLevel r ops operand) :=
  ho.bind fun left hl => operatorTail_yields ho ops (r.bound + 1) left hl

theorem equality_yields : Yields N T (IsExpr N) (equality r) :=
  operatorLevel_yields (operatorLevel_yields (operatorLevel_yields
    (operatorLevel_yields (unary_yields hr) _) _) _) _

theorem assignment_yields : Yields N T (IsExpr N) (assignment r) := by
  refine (equality_yields hr).bind fun target ht => (accept_yields _).bind fun b _ => ?_
  split
  · have hvalue : Yields N T (IsExpr N) (do
        let value ← r.assignment
        return ⟨.assign, "=", false, target.loc, [target, value]⟩) :=
      hr.assignment.bind fun value hv => .pure (.assign target.loc target value ht hv)
    dsimp only
    split
    · exact hvalue
    · exact .andThen (report_yields _) hvalue
  · exact .pure ht

theorem expression_yields : Yields N T (IsExpr N) (expression r) := by
  refine (assignment_yields hr).bind fun left hl => (accept_yields _).bind fun b _ => ?_
  split
  · exact hr.expression.bind fun right hright => .pure (.comma left.loc left right hl hright)
  · exact .pure hl

end Expressions

/-! ## Statements and functions -/

section Statements

variable {r : Productions} (hr : Sound N T r)

include hr

theorem statements_yields (n : Nat) : Yields N T (AreStmts N T) (statements r n) := by
  induction n with
  | zero => exact usedUp_yields .nil
  | succ n ih =>
    refine peek_yields.bind fun t _ => ?_
    split
    · exact .pure .nil
    · refine (accept_yields _).bind fun b _ => ?_
      split
      · exact ih
      · refine hr.statement.bind fun t ht => ?_
        exact ih.bind fun ts hts => .pure (.cons t ts ht hts)

theorem block_yields : Yields N T (IsBlock N T) (block r) := by
  refine here_yields.bind fun loc _ => .signThen ?_
  refine (statements_yields hr (r.bound + 1)).bind fun ts hts => ?_
  exact .signThen (.pure (.mk loc ts hts))

theorem declarator_yields (h : StandIns N T) : Yields N T (IsDeclarator N) (declarator r) := by
  refine (expectName_yields h _).bind fun name hname => (accept_yields _).bind fun b _ => ?_
  have hrest (value : List Tree) (hv : value = [] ∨ ∃ e, value = [e] ∧ IsExpr N e) :
      Yields N T (IsDeclarator N) (do
        if ← accept (.symbol .openBracket) then
          unless value.isEmpty do report .arrayInitializer
          let size ← expression r
          expectSign .closeBracket (.item "']'")
          return ⟨.declarator, name.text, true, name.loc, [size]⟩
        else
          return ⟨.declarator, name.text, false, name.loc, value⟩) := by
    refine (accept_yields _).bind fun b _ => ?_
    split
    · have hsize : Yields N T (IsDeclarator N) (do
          let size ← expression r
          expectSign .closeBracket (.item "']'")
          return ⟨.declarator, name.text, true, name.loc, [size]⟩) :=
        (expression_yields hr).bind fun e he =>
          .signThen (.pure (.array name.text name.loc e hname he))
      dsimp only
      split
      · exact hsize
      · exact .andThen (report_yields _) hsize
    · refine .pure ?_
      rcases hv with rfl | ⟨e, rfl, he⟩
      · exact .plain name.text name.loc hname
      · exact .initial name.text name.loc e hname he
  dsimp only
  split
  · exact (assignment_yields hr).bind fun e he => hrest [e] (.inr ⟨e, rfl, he⟩)
  · exact hrest [] (.inl rfl)

theorem declaration_yields (h : StandIns N T) : Yields N T (IsDeclaration N T) (declaration r) := by
  refine here_yields.bind fun loc _ => (typeName_yields h _).bind fun ty hty => ?_
  refine (commaSeparated_yields (declarator_yields hr h) r.bound).bind fun names hnames => ?_
  refine .signThen (.pure ?_)
  obtain ⟨d, ds, rfl, hd, hds⟩ := hnames
  exact .mk loc ty d ds hty hd hds

theorem elseBranches_yields (n : Nat) : Yields N T (AreBranches N T) (elseBranches r n) := by
  induction n with
  | zero => exact usedUp_yields .nil
  | succ n ih =>
    refine here_yields.bind fun loc _ => (accept_yields _).bind fun b _ => ?_
    split
    · refine (accept_yields _).bind fun b _ => ?_
      split
      · refine .signThen ((expression_yields hr).bind fun c hc => ?_)
        refine .signThen ((block_yields hr).bind fun body hbody => ?_)
        exact ih.bind fun ts hts => .pure (.elseIf loc c body ts hc hbody hts)
      · exact (block_yields hr).bind fun body hbody => .pure (.last body hbody)
    · exact .pure .nil

theorem conditional_yields : Yields N T (IsStmt N T) (conditional r) := by
  refine here_yields.bind fun loc _ => .wordThen (.signThen ?_)
  refine (expression_yields hr).bind fun c hc => .signThen ?_
  refine (block_yields hr).bind fun body hbody =>
    (elseBranches_yields hr (r.bound + 1)).bind fun ts hts => ?_
  exact .pure (.conditional loc c body ts hc hbody hts)

theorem whileLoop_yields : Yields N T (IsStmt N T) (whileLoop r) := by
  refine here_yields.bind fun loc _ => .wordThen (.signThen ?_)
  refine (expression_yields hr).bind fun c hc => .signThen ?_
  exact (block_yields hr).bind fun body hbody => .pure (.whileLoop loc c body hc hbody)

theorem doWhile_yields : Yields N T (IsStmt N T) (doWhile r) := by
  refine here_yields.bind fun loc _ => .wordThen ?_
  refine (block_yields hr).bind fun body hbody => .wordThen ?_
  refine .signThen ((expression_yields hr).bind fun c hc => ?_)
  exact .signThen (.signThen (.pure (.doWhile loc body c hbody hc)))

theorem forFirst_yields (h : StandIns N T) : Yields N T (IsFirst N T) (forFirst r) := by
  refine peek_yields.bind fun t _ => ?_
  split
  · exact (declaration_yields hr h).mono fun t ht => .declaration t ht
  · refine (accept_yields _).bind fun b _ => ?_
    split
    · exact .pure (.omitted t.loc)
    · refine (expression_yields hr).bind fun e he => .signThen ?_
      exact .pure (.expr t.loc e he)

theorem optionalBefore_yields (c : Symbol) : Yields N T (IsOptional N) (optionalBefore r c) := by
  refine peek_yields.bind fun t _ => ?_
  split
  · exact .pure (.omitted t.loc)
  · exact (expression_yields hr).mono fun e he => .expr e he

theorem forLoop_yields (h : StandIns N T) : Yields N T (IsStmt N T) (forLoop r) := by
  refine here_yields.bind fun loc _ => .wordThen (.signThen ?_)
  refine (forFirst_yields hr h).bind fun first hfirst => ?_
  refine (optionalBefore_yields hr _).bind fun c hc => .signThen ?_
  refine (optionalBefore_yields hr _).bind fun step hstep => .signThen ?_
  refine (block_yields hr).bind fun body hbody => .pure ?_
  exact .forLoop loc first c step body hfirst hc hstep hbody

theorem returnStmt_yields : Yields N T (IsStmt N T) (returnStmt r) := by
  refine here_yields.bind fun loc _ => .wordThen (peek_yields.bind fun t _ => ?_)
  dsimp only
  split
  · exact .signThen (.pure (.returnNothing loc))
  · refine (expression_yields hr).bind fun e he => ?_
    exact .signThen (.pure (.returnValue loc e he))

theorem exprStmt_yields : Yields N T (IsStmt N T) (exprStmt r) := by
  refine here_yields.bind fun loc _ => (expression_yields hr).bind fun e he => ?_
  exact .signThen (.pure (.exprStmt loc e he))

omit hr in
theorem jump_yields {kind : Tree.Kind} {text : String} (word : String)
    (h : ∀ loc, IsStmt N T { kind, text, loc }) :
    Yields N T (IsStmt N T) (jump kind text word) := by
  refine advance_yields.bind fun t _ => .signThen ?_
  exact .pure (h t.loc)

theorem statement_yields (h : StandIns N T) : Yields N T (IsStmt N T) (statement r) := by
  refine peek_yields.bind fun t _ => ?_
  split
  · exact (block_yields hr).mono fun t ht => .block t ht
  · exact conditional_yields hr
  · exact whileLoop_yields hr
  · exact doWhile_yields hr
  · exact forLoop_yields hr h
  · exact returnStmt_yields hr
  · exact jump_yields _ .breakStmt
  · exact jump_yields _ .continueStmt
  · split
    · exact (declaration_yields hr h).mono fun t ht => .declaration t ht
    · exact exprStmt_yields hr

omit hr in
theorem parameter_yields (h : StandIns N T) : Yields N T (IsParameter N T) parameter := by
  refine (typeName_yields h _).bind fun ty hty => (expectName_yields h _).bind fun name hname => ?_
  refine (accept_yields _).bind fun isArray _ => ?_
  have hdone : Yields N T (IsParameter N T)
      (pure ⟨.parameter, name.text, isArray, ty.loc, [ty]⟩) :=
    .pure (.mk name.text isArray ty.loc ty hname hty)
  dsimp only
  split
  · exact .signThen hdone
  · exact hdone

omit hr in
theorem parameters_yields (h : StandIns N T) :
    Yields N T (fun ps => ∀ p ∈ ps, IsParameter N T p) (parameters r) := by
  refine (accept_yields _).bind fun b _ => ?_
  split
  · exact .pure fun _ hp => absurd hp not_mem_nil
  · refine (commaSeparated_yields (parameter_yields h) r.bound).bind fun ps hps => ?_
    refine .signThen (.pure ?_)
    obtain ⟨p, ps, rfl, hp, hps⟩ := hps
    exact forall_mem_cons.mpr ⟨hp, hps⟩

theorem function_yields (h : StandIns N T) : Yields N T (IsFunction N T) (function r) := by
  refine here_yields.bind fun loc _ => .wordThen ?_
  refine (typeName_yields h _).bind fun ty hty => (expectName_yields h _).bind fun name hname => ?_
  refine .signThen ((parameters_yields h).bind fun ps hps => ?_)
  exact (block_yields hr).bind fun body hbody =>
    .pure (.mk name.text loc ty ps body hname hty hps hbody)

theorem items_yields (h : StandIns N T) (n : Nat) :
    Yields N T (fun ts => ∀ t ∈ ts, IsItem N T t) (items r n) := by
  induction n with
  | zero => exact usedUp_yields fun _ ht => absurd ht not_mem_nil
  | succ n ih =>
    refine peek_yields.bind fun t _ => ?_
    split
    · exact .pure fun _ ht => absurd ht not_mem_nil
    · refine (accept_yields _).bind fun b _ => ?_
      split
      · exact ih
      · have hrest (first : Tree) (hfirst : IsItem N T first) :
            Yields N T (fun ts => ∀ t ∈ ts, IsItem N T t) (do return first :: (← items r n)) :=
          ih.bind fun ts hts => .pure (forall_mem_cons.mpr ⟨hfirst, hts⟩)
        dsimp only
        split
        · exact (function_yields hr h).bind fun t ht => hrest t (.function t ht)
        · exact (statement_yields hr h).bind fun t ht => hrest t (.stmt t ht)

end Statements

theorem sound_upTo (h : StandIns N T) (n : Nat) : Sound N T (Productions.upTo n) := by
  induction n with
  | zero =>
    have hstop : Yields N T (IsExpr N) (do usedUp (zero (← here))) :=
      here_yields.bind fun loc _ => usedUp_yields (.number "0" loc)
    refine ⟨hstop, hstop, hstop, ?_⟩
    exact here_yields.bind fun loc _ => usedUp_yields (.block _ (.mk loc [] .nil))
  | succ n ih =>
    exact ⟨expression_yields ih, assignment_yields ih, unary_yields ih, statement_yields ih h⟩

end Parser

/-- **Parsed trees have the shape of programs**, whatever the tokens are. -/
theorem parse_isItem {N T : String → Prop} (h : StandIns N T) {tokens : List Token}
    (ht : ∀ t ∈ tokens, t.Fits N T) : ∀ t ∈ (Tree.parse tokens).1.children, IsItem N T t := by
  have hs : (Parser.State.ofTokens tokens).Fits N T := ⟨ht, rfl, rfl⟩
  exact (Parser.items_yields (Parser.sound_upTo h tokens.length) h (tokens.length + 1) _ hs).1

/-! ## Names and types in source texts -/

/-- A text without the sign that sets new variables and hidden ones apart. -/
def IsName (x : String) : Prop := '#' ∉ x.toList

def IsTypeWord (x : String) : Prop := x ∈ ["int", "char", "double", "string"]

theorem standIns_source : StandIns IsName IsTypeWord := ⟨by simp [IsName], by simp [IsTypeWord]⟩

theorem isTypeWord_spelling {k : Keyword} (h : k.isType) : IsTypeWord k.spelling := by
  cases k with
  | intKw | charKw | doubleKw | stringKw => simp [IsTypeWord, Keyword.spelling]
  | _ => cases h

theorem word_fits (cs : List Char) (loc : Loc) :
    Token.Fits IsName IsTypeWord ⟨(Lexeme.word cs).kind, (Lexeme.word cs).text, loc⟩ := by
  constructor
  · intro _ hmem
    rw [Lexeme.word, String.toList_ofList] at hmem
    have hword : isWordChar '#' = true := all_eq_true.mp all_takeWhile _ hmem
    exact absurd hword (by decide)
  · intro htype
    unfold Lexeme.word at htype ⊢
    dsimp only at htype ⊢
    cases hk : Keyword.ofSpelling? (String.ofList (cs.takeWhile isWordChar)) with
    | none =>
      rw [hk] at htype
      cases htype
    | some k =>
      rw [hk] at htype
      have hspell : k.spelling = String.ofList (cs.takeWhile isWordChar) := by
        simpa using find?_some hk
      rw [← hspell]
      exact isTypeWord_spelling htype

theorem ofHead_fits (c : Char) (cs : List Char) (loc : Loc) :
    Token.Fits IsName IsTypeWord ⟨(Lexeme.ofHead c cs).kind, (Lexeme.ofHead c cs).text, loc⟩ := by
  unfold Lexeme.ofHead
  split
  · exact word_fits (c :: cs) loc
  · split
    · exact ⟨fun h => (by cases h), fun h => (by cases h)⟩
    · split
      · exact ⟨fun h => (by cases h), fun h => (by cases h)⟩
      · unfold Lexeme.sign
        split <;> exact ⟨fun h => (by cases h), fun h => (by cases h)⟩

theorem Cursor.scan_fits (c : Cursor) : c.scan.1.Fits IsName IsTypeWord := by
  unfold Cursor.scan
  dsimp only
  split
  · exact ⟨fun h => (by cases h), fun h => (by cases h)⟩
  · exact ofHead_fits ..

theorem Token.scan_fits (source : String) : ∀ t ∈ Token.scan source, t.Fits IsName IsTypeWord := by
  have htokens (c : Cursor) : ∀ t ∈ c.tokens, t.Fits IsName IsTypeWord := by
    fun_induction Cursor.tokens c with
    | case1 c _ =>
      intro t ht
      rw [mem_singleton.mp ht]
      exact c.scan_fits
    | case2 c _ ih => exact forall_mem_cons.mpr ⟨c.scan_fits, ih⟩
  exact htokens _

end Stacklet
