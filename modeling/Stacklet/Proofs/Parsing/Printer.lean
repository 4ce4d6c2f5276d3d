import Stacklet.Proofs.Height.Code
import Stacklet.Proofs.Parsing.Lockstep
import Stacklet.Proofs.Parsing.Grammar.Statement
/-!
# Writing trees

* `Tree.write`: the tokens of a tree. An expression stands in parentheses where it is looser than
  its place asks for, and in as many more as one likes, unless something is called or indexed there.
* `Tree.isFit`: whether operators are what they should be, and names or elements are assigned to.
* `IsExpr.written`, `IsStmt.written`, `IsItem.written_items`: what is written of a tree derives it.
* `parse_write`: what is written of a program is parsed into that program again.
-/

namespace Stacklet

open Stacklet.Tree List

variable {t : Tree}

/-! ## Tokens of a tree -/

/-- The operator between two operands that is written `x`. -/
def Symbol.binary? (x : String) : Option Symbol :=
  [eq, ne, lt, le, gt, ge, plus, minus, star, slash, percent].find? fun s => s.spelling == x

def Symbol.unary? (x : String) : Option Symbol := [plus, minus, bang].find? fun s => s.spelling == x

namespace Token

def ofSymbol (s : Symbol) : Token := ⟨.symbol s, s.spelling, .start⟩

def ofKeyword (k : Keyword) : Token := ⟨.keyword k, k.spelling, .start⟩

def ofName (x : String) : Token := ⟨.name, x, .start⟩

/-- A token without its place. -/
def unplaced (t : Token) : Token := { t with loc := .start }

end Token

namespace Tree

/-- How tightly an expression of some kind is bound, with its operator. -/
def level (k : Kind) (x : String) : Precedence :=
  match k with
  | .comma => .expression
  | .assign => .assignment
  | .binary => ((Symbol.binary? x).bind Precedence.ofSign?).getD .term
  | .unary => .unary
  | .call | .index => .suffixed
  | _ => .primary

/-- How tightly each child of a node has to be bound; for some there are no parentheses. -/
def wants (k : Kind) (x : String) (isArray : Bool) (i : Nat) : Option Precedence :=
  match k, i with
  | .comma, 0 => some .assignment
  | .comma, _ => some .expression
  | .assign, 0 => some .equality
  | .assign, _ => some .assignment
  | .binary, 0 => some (level .binary x)
  | .binary, _ => some (level .binary x).next
  | .unary, _ => some .unary
  | .call, 0 | .index, 0 => none
  | .call, _ => some .assignment
  | .index, _ => some .expression
  | .declarator, _ => some (if isArray then .expression else .assignment)
  | .conditional, 0 | .elseIf, 0 | .whileLoop, 0 | .doWhile, 1 | .forLoop, 1 | .forLoop, 2 =>
    some .expression
  | .exprStmt, _ | .returnStmt, _ => some .expression
  | _, _ => none

/-- The pairs of parentheses around a node where the level `l` is asked for: `more` than are needed,
if any may stand there. -/
def pairs (more : Nat) (l : Option Precedence) (k : Kind) (x : String) : Nat :=
  match k, l with
  | .empty, _ | _, none => 0
  | _, some l => more + if (level k x).rank < l.rank then 1 else 0

end Tree

/-- Tokens in `n` pairs of parentheses. -/
def enclosed : Nat → List Token → List Token
  | 0, ts => ts
  | n + 1, ts => .ofSymbol .openParen :: (enclosed n ts ++ [.ofSymbol .closeParen])

def separated : List (List Token) → List Token
  | [] => []
  | [ts] => ts
  | ts :: tss => ts ++ .ofSymbol .comma :: separated tss

/-- An expression in parentheses, with what follows. -/
def inParens (ts rest : List Token) : List Token :=
  .ofSymbol .openParen :: (ts ++ .ofSymbol .closeParen :: rest)

namespace Tree

/-- The tokens of a node, given those of its children. -/
def assembled (k : Kind) (x : String) (isArray : Bool) (parts : List (List Token)) : List Token :=
  match k, parts with
  | .number, _ => [⟨.number, x, .start⟩]
  | .string, _ => [⟨.string, x, .start⟩]
  | .identifier, _ => [.ofName x]
  | .unary, [a] => ⟨.symbol ((Symbol.unary? x).getD .plus), x, .start⟩ :: a
  | .binary, [a, b] => a ++ ⟨.symbol ((Symbol.binary? x).getD .plus), x, .start⟩ :: b
  | .comma, [a, b] => a ++ .ofSymbol .comma :: b
  | .assign, [a, b] => a ++ .ofSymbol .assign :: b
  | .call, f :: args => f ++ .ofSymbol .openParen :: (separated args ++ [.ofSymbol .closeParen])
  | .index, [a, i] => a ++ .ofSymbol .openBracket :: (i ++ [.ofSymbol .closeBracket])
  | .typeName, _ => [⟨.keyword ((Keyword.ofSpelling? x).getD .intKw), x, .start⟩]
  | .declarator, [] => [.ofName x]
  | .declarator, [a] =>
    if isArray then .ofName x :: .ofSymbol .openBracket :: (a ++ [.ofSymbol .closeBracket])
    else .ofName x :: .ofSymbol .assign :: a
  | .declaration, ty :: ds => ty ++ (separated ds ++ [.ofSymbol .semicolon])
  | .exprStmt, [a] => a ++ [.ofSymbol .semicolon]
  | .returnStmt, parts => .ofKeyword .returnKw :: (parts.flatten ++ [.ofSymbol .semicolon])
  | .breakStmt, _ => [.ofKeyword .breakKw, .ofSymbol .semicolon]
  | .continueStmt, _ => [.ofKeyword .continueKw, .ofSymbol .semicolon]
  | .block, parts => .ofSymbol .openBrace :: (parts.flatten ++ [.ofSymbol .closeBrace])
  | .conditional, a :: body :: branches =>
    .ofKeyword .ifKw :: inParens a (body ++ branches.flatMap fun ts => .ofKeyword .elseKw :: ts)
  | .elseIf, [a, body] => .ofKeyword .ifKw :: inParens a body
  | .whileLoop, [a, body] => .ofKeyword .whileKw :: inParens a body
  | .doWhile, [body, a] =>
    .ofKeyword .doKw :: (body ++ .ofKeyword .whileKw :: inParens a [.ofSymbol .semicolon])
  | .forLoop, [first, a, step, body] =>
    -- a declaration and an expression statement have a semicolon of their own
    let first := if first.isEmpty then [.ofSymbol .semicolon] else first
    .ofKeyword .forKw :: .ofSymbol .openParen ::
      (first ++ (a ++ .ofSymbol .semicolon :: (step ++ .ofSymbol .closeParen :: body)))
  | .parameter, [ty] =>
    ty ++ .ofName x :: if isArray then [.ofSymbol .openBracket, .ofSymbol .closeBracket] else []
  | .function, ty :: parts =>
    .ofKeyword .fnKw :: (ty ++ .ofName x :: inParens (separated parts.dropLast) (parts.getLastD []))
  | .program, parts => parts.flatten
  | _, _ => []

mutual

/-- **The tokens of a tree**, where the level `l` is asked for. There are `more p` spare pairs of
parentheses around the expression at the place `p`. -/
def write (more : List Nat → Nat) (l : Option Precedence) : Tree → List Token
  | ⟨k, x, isArray, _, ts⟩ =>
    enclosed (pairs (more []) l k x)
      (assembled k x isArray (writeAll more (wants k x isArray) 0 ts))

/-- The tokens of the children of a node, from number `i` on. -/
def writeAll (more : List Nat → Nat) (ls : Nat → Option Precedence) (i : Nat) : List Tree →
    List (List Token)
  | [] => []
  | t :: ts => write (fun p => more (i :: p)) (ls i) t :: writeAll more ls (i + 1) ts

end

mutual

def unplaced : Tree → Tree
  | ⟨k, x, isArray, _, ts⟩ => ⟨k, x, isArray, .start, unplacedAll ts⟩

def unplacedAll : List Tree → List Tree
  | [] => []
  | t :: ts => unplaced t :: unplacedAll ts

end

/-- Whether the operator of a node is one, and what is assigned to is a name or an element. -/
def isFit (t : Tree) : Bool :=
  match t.kind, t.children with
  | .unary, _ => (Symbol.unary? t.text).isSome
  | .binary, _ => (Symbol.binary? t.text).isSome
  | .assign, target :: _ => Parser.isTarget target.kind
  | _, _ => true

@[simp] theorem kind_unplaced (t : Tree) : t.unplaced.kind = t.kind := by
  cases t
  rfl

@[simp] theorem loc_unplaced (t : Tree) : t.unplaced.loc = .start := by
  cases t
  rfl

theorem unplacedAll_append (ts us : List Tree) :
    unplacedAll (ts ++ us) = unplacedAll ts ++ unplacedAll us := by
  induction ts with
  | nil => rfl
  | cons t ts ih => rw [cons_append, unplacedAll, ih, unplacedAll, cons_append]

mutual

theorem same_unplaced : ∀ t u : Tree, t.same u.unplaced = t.same u
  | ⟨_, _, _, _, ts⟩, ⟨_, _, _, _, us⟩ => by rw [unplaced, same, same, sameAll_unplacedAll ts us]

theorem sameAll_unplacedAll : ∀ ts us : List Tree, sameAll ts (unplacedAll us) = sameAll ts us
  | [], [] => rfl
  | [], _ :: _ => rfl
  | _ :: _, [] => rfl
  | t :: ts, u :: us => by
    rw [unplacedAll, sameAll, sameAll, same_unplaced t u, sameAll_unplacedAll ts us]

end

theorem write_eq (more : List Nat → Nat) (l : Option Precedence) (t : Tree) :
    t.write more l = enclosed (pairs (more []) l t.kind t.text) (t.write more none) := by
  obtain ⟨k, x, isArray, loc, ts⟩ := t
  rw [write, write]
  have hnone : pairs (more []) none k x = 0 := by cases k <;> rfl
  rw [hnone, enclosed]

end Tree

open Stacklet.Tree

/-! ## Places of written tokens -/

/-- Tokens without places. -/
def AtStart (ts : List Token) : Prop := ∀ t ∈ ts, t.loc = .start

section Tokens

-- no token that is written is an unknown character, and none has a place
variable {P : Token → Prop} (hP : ∀ k x, k ≠ .unknown → P ⟨k, x, .start⟩) {ts : List Token}
  {tss : List (List Token)}

include hP

theorem forall_mem_enclosed (h : ∀ t ∈ ts, P t) (n : Nat) : ∀ t ∈ enclosed n ts, P t := by
  induction n with
  | zero => exact h
  | succ n ih =>
    rw [enclosed, forall_mem_cons, forall_mem_append, forall_mem_singleton]
    exact ⟨hP _ _ nofun, ih, hP _ _ nofun⟩

theorem forall_mem_separated (h : ∀ ts ∈ tss, ∀ t ∈ ts, P t) : ∀ t ∈ separated tss, P t := by
  fun_induction separated tss with
  | case1 => exact forall_mem_nil _
  | case2 ts => exact h ts (mem_singleton_self ts)
  | case3 ts tss _ ih =>
    rw [forall_mem_append, forall_mem_cons]
    exact ⟨h ts mem_cons_self, hP _ _ nofun, ih fun ts hts => h ts (mem_cons_of_mem _ hts)⟩

theorem forall_mem_assembled (k : Tree.Kind) (x : String) (isArray : Bool)
    (h : ∀ ts ∈ tss, ∀ t ∈ ts, P t) :
    ∀ t ∈ assembled k x isArray tss, P t := by
  have hseparated {tss' : List (List Token)} (hsub : tss' ⊆ tss) : ∀ t ∈ separated tss', P t :=
    forall_mem_separated hP fun ts hts => h ts (hsub hts)
  unfold assembled
  split
  all_goals repeat' first
    | exact forall_mem_nil _
    | refine forall_mem_cons.mpr ⟨hP _ _ nofun, ?_⟩
    | refine forall_mem_append.mpr ⟨?_, ?_⟩
    | exact forall_mem_flatten.mpr h
    | exact hseparated (subset_cons_self _ _)
    | refine h _ ?_; simp; done
    | split
  case h_19.refine_2.refine_2 =>
    refine forall_mem_flatMap.mpr fun ts hts => forall_mem_cons.mpr ⟨hP _ _ nofun, h ts ?_⟩
    exact mem_cons_of_mem _ (mem_cons_of_mem _ hts)
  case h_25.refine_2.refine_1 => exact hseparated (subset_cons_of_subset _ (dropLast_subset _))
  case h_25.refine_2.refine_2 parts =>
    cases hlast : parts.getLast? with
    | none => simp [hlast]
    | some ts => simpa [hlast] using h ts (mem_cons_of_mem _ (mem_of_getLast? hlast))

end Tokens

mutual

theorem Tree.forall_mem_write {P : Token → Prop} (hP : ∀ k x, k ≠ .unknown → P ⟨k, x, .start⟩)
    (more : List Nat → Nat) (l : Option Precedence) : ∀ t : Tree, ∀ w ∈ t.write more l, P w
  | ⟨k, x, isArray, _, ts⟩ =>
    forall_mem_enclosed hP (forall_mem_assembled hP k x isArray
      (forall_mem_writeAll hP more (wants k x isArray) 0 ts)) _

theorem Tree.forall_mem_writeAll {P : Token → Prop} (hP : ∀ k x, k ≠ .unknown → P ⟨k, x, .start⟩)
    (more : List Nat → Nat) (ls : Nat → Option Precedence) (i : Nat) :
    ∀ ts : List Tree, ∀ us ∈ writeAll more ls i ts, ∀ w ∈ us, P w
  | [] => forall_mem_nil _
  | t :: ts =>
    forall_mem_cons.mpr ⟨forall_mem_write hP _ _ t, forall_mem_writeAll hP more ls (i + 1) ts⟩

end

theorem Tree.atStart_write (more : List Nat → Nat) (l : Option Precedence) (t : Tree) :
    AtStart (t.write more l) :=
  forall_mem_write (fun _ _ _ => rfl) more l t

theorem Tree.map_unplaced_write (more : List Nat → Nat) (l : Option Precedence) (t : Tree) :
    (t.write more l).map Token.unplaced = t.write more l := by
  refine (map_congr_left fun w hw => ?_).trans (map_id _)
  obtain ⟨k, x, loc⟩ := w
  cases atStart_write more l t _ hw
  rfl

/-! ## Expressions -/

theorem Derives.looser {l l' : Precedence} {ts : List Token} {a : Tree} (h : l.rank ≤ l'.rank)
    (hd : Derives l' ts a) : Derives l ts a := by
  obtain ⟨d, hd'⟩ := Nat.exists_eq_add_of_le h
  induction d generalizing l with
  | zero =>
    have hl : l = l' := by cases l <;> cases l' <;> first | rfl | cases hd'
    rwa [hl]
  | succ d ih =>
    have hne : l ≠ .primary := by
      rintro rfl
      cases l' <;> simp only [Precedence.rank] at hd' <;> omega
    have hnext : l.next.rank = l.rank + 1 := by cases l <;> first | rfl | exact absurd rfl hne
    exact .tighter l ts a hne (ih (by omega) (by omega))

theorem Derives.enclosed {l : Precedence} {ts : List Token} {a : Tree} (h : Derives l ts a)
    (n : Nat) :
    Derives .primary (enclosed (n + 1) ts) a := by
  induction n with
  | zero => exact .parens _ _ _ _ rfl (h.looser (Nat.zero_le _)) rfl
  | succ n ih => exact .parens _ _ _ _ rfl (ih.looser (Nat.zero_le _)) rfl

/-- What is written of an expression derives it, also where calls and indices follow. -/
structure Tree.Written (more : List Nat → Nat) (t : Tree) : Prop where
  kind_ne : t.kind ≠ .empty
  derives : Derives (level t.kind t.text) (t.write more none) t.unplaced
  chain : isSuffixable t.kind → DerivesChain (t.write more none) t.unplaced

theorem Tree.Written.within {more : List Nat → Nat} (h : t.Written more) (l : Precedence) :
    Derives l (t.write more (some l)) t.unplaced := by
  rw [write_eq]
  have hpairs : pairs (more []) (some l) t.kind t.text = more [] + if (level t.kind t.text).rank <
      l.rank then 1 else 0 := by
    have ht := h.kind_ne
    generalize t.kind = k at ht ⊢
    cases k <;> first | rfl | exact absurd rfl ht
  cases hn : pairs (more []) (some l) t.kind t.text with
  | zero =>
    have hlevel : l.rank ≤ (level t.kind t.text).rank := by
      rw [hpairs] at hn
      split at hn <;> omega
    exact h.derives.looser hlevel
  | succ n =>
    have hprimary : l.rank ≤ Precedence.primary.rank := by cases l <;> decide
    exact (h.derives.enclosed n).looser hprimary

theorem Symbol.level_of_binary? {x : String} {s : Symbol} (h : binary? x = some s) :
    Precedence.ofSign? s = some (level .binary x) ∧ (level .binary x).isBinary := by
  have hlevel : level .binary x = (Precedence.ofSign? s).getD .term := by
    show ((binary? x).bind Precedence.ofSign?).getD .term = _
    rw [h]
    rfl
  have hmem := mem_of_find?_eq_some h
  simp only [mem_cons, not_mem_nil, or_false] at hmem
  rw [hlevel]
  rcases hmem with rfl | rfl | rfl | rfl | rfl | rfl | rfl | rfl | rfl | rfl | rfl <;> decide

variable {N T : String → Prop}

theorem Tree.Written.of_derives {more : List Nat → Nat} (hkind : t.kind ≠ .empty)
    (hno : isSuffixable t.kind = false)
    (h : Derives (level t.kind t.text) (t.write more none) t.unplaced) : t.Written more :=
  ⟨hkind, h, fun hyes => absurd (hno.symm.trans hyes) Bool.false_ne_true⟩

mutual

theorem IsExpr.written {t : Tree} :
    IsExpr N t → t.all isFit → ∀ more : List Nat → Nat, t.Written more
  | .number x _, _, _ => .of_derives nofun rfl (.number ⟨.number, x, .start⟩ rfl)
  | .string x _, _, _ => .of_derives nofun rfl (.string ⟨.string, x, .start⟩ rfl)
  | .identifier x _ _, _, _ =>
    have hname : Derives .primary [.ofName x] _ := .name (.ofName x) rfl
    ⟨nofun, hname, fun _ => .base _ _ hname rfl⟩
  | .unary x loc a ha, hfit, more => by
    refine .of_derives nofun rfl ?_
    have hop : (⟨.symbol ((Symbol.unary? x).getD .plus), x, .start⟩ : Token).isPrefixOp := by
      obtain ⟨s, hs⟩ := Option.isSome_iff_exists.mp (all_iff.mp hfit).1
      have hmem := mem_of_find?_eq_some hs
      simp only [mem_cons, not_mem_nil, or_false] at hmem
      rw [show Symbol.unary? x = some s from hs]
      rcases hmem with rfl | rfl | rfl <;> rfl
    have hoperand :=
      (ha.written (all_of_mem hfit mem_cons_self) fun p => more (0 :: p)).within .unary
    exact .unary _ _ _ hop hoperand
  | .binary x loc a b ha hb, hfit, more => by
    refine .of_derives nofun rfl ?_
    obtain ⟨s, hs⟩ := Option.isSome_iff_exists.mp (all_iff.mp hfit).1
    obtain ⟨hsign, hbinary⟩ := Symbol.level_of_binary? hs
    have hleft := (ha.written (all_of_mem hfit mem_cons_self) fun p => more (0 :: p)).within
      (level .binary x)
    have hright := (hb.written (all_of_mem hfit (by simp)) fun p => more (1 :: p)).within
      (level .binary x).next
    have hd := Derives.binary _ _ _ ⟨.symbol ((Symbol.binary? x).getD .plus), x, .start⟩
      s _ _ hbinary hleft
      (by rw [show Symbol.binary? x = some s from hs]; rfl) hsign hright
    rw [loc_unplaced] at hd
    exact hd
  | .comma loc a b ha hb, hfit, more => by
    refine .of_derives nofun rfl ?_
    have hleft := (ha.written (all_of_mem hfit mem_cons_self) fun p => more (0 :: p)).within
      .assignment
    have hright := (hb.written (all_of_mem hfit (by simp)) fun p => more (1 :: p)).within
      .expression
    have hd := Derives.comma _ _ (.ofSymbol .comma) _ _ hleft rfl hright
    rw [loc_unplaced] at hd
    exact hd
  | .assign loc a b ha hb, hfit, more => by
    refine .of_derives nofun rfl ?_
    have htarget : Parser.isTarget a.unplaced.kind := by
      rw [kind_unplaced]
      exact (all_iff.mp hfit).1
    have hleft :=
      (ha.written (all_of_mem hfit mem_cons_self) fun p => more (0 :: p)).within .equality
    have hright := (hb.written (all_of_mem hfit (by simp)) fun p => more (1 :: p)).within
      .assignment
    have hd := Derives.assign _ _ (.ofSymbol .assign) _ _ hleft htarget rfl hright
    rw [loc_unplaced] at hd
    exact hd
  | .call loc f args hf hkind hargs, hfit, more => by
    have hbase := (hf.written (all_of_mem hfit mem_cons_self) fun p => more (0 :: p)).chain hkind
    have hchain : DerivesChain (write more none ⟨.call, "Call", false, loc, f :: args⟩)
        (unplaced ⟨.call, "Call", false, loc, f :: args⟩) := by
      cases args with
      | nil =>
        have hd := DerivesChain.callNone _ (.ofSymbol .openParen) (.ofSymbol .closeParen) _
          hbase rfl rfl
        rw [loc_unplaced] at hd
        exact hd
      | cons a as =>
        have hlist := hargs.written (fun t ht => all_of_mem hfit (mem_cons_of_mem _ ht))
          (cons_ne_nil _ _) more 0
        have hd := DerivesChain.call _ _ (.ofSymbol .openParen) (.ofSymbol .closeParen) _ _
          hbase rfl hlist rfl
        rw [loc_unplaced] at hd
        exact hd
    exact ⟨nofun, .chain _ _ hchain, fun _ => hchain⟩
  | .index loc a i ha hkind hi, hfit, more => by
    have hbase := (ha.written (all_of_mem hfit mem_cons_self) fun p => more (0 :: p)).chain hkind
    have hindex := (hi.written (all_of_mem hfit (by simp)) fun p => more (1 :: p)).within
      .expression
    have hchain := DerivesChain.index _ _ (.ofSymbol .openBracket) (.ofSymbol .closeBracket) _ _
      hbase rfl hindex rfl
    rw [loc_unplaced] at hchain
    exact ⟨nofun, .chain _ _ hchain, fun _ => hchain⟩

theorem AreExprs.written {ts : List Tree} :
    AreExprs N ts → (∀ t ∈ ts, t.all isFit) → ts ≠ [] → ∀ (more : List Nat → Nat) (i : Nat),
    DerivesList (separated (writeAll more (wants .call "Call" false) (i + 1) ts)) (unplacedAll ts)
  | .nil, _, hne, _, _ => absurd rfl hne
  | .cons t [] ht _, hfit, _, more, i =>
    .one _ _ ((ht.written (hfit t mem_cons_self) fun p => more ((i + 1) :: p)).within .assignment)
  | .cons t (u :: us) ht hts, hfit, _, more, i =>
    .cons _ _ _ _ _ ((ht.written (hfit t mem_cons_self) fun p => more ((i + 1) :: p)).within
      .assignment) rfl
      (hts.written (fun t ht => hfit t (mem_cons_of_mem _ ht)) (cons_ne_nil _ _) more (i + 1))

end

/-! ## Statements -/

theorem IsType.write {ty : Tree} (h : IsType IsTypeWord ty) (more : List Nat → Nat) :
    ∃ t : Token, t.kind.isType ∧ t.loc = .start ∧ ty.write more none = [t] ∧
      ty.unplaced = Parser.leaf .typeName t := by
  obtain ⟨x, loc, hx⟩ := h
  refine ⟨⟨.keyword ((Keyword.ofSpelling? x).getD .intKw), x, .start⟩, ?_, rfl, rfl, rfl⟩
  have hword : x = "int" ∨ x = "char" ∨ x = "double" ∨ x = "string" := by
    simpa [IsTypeWord] using hx
  rcases hword with rfl | rfl | rfl | rfl <;> decide

theorem Separated.written {D : List Token → Tree → Prop} (more : List Nat → Nat)
    {ls : Nat → Option Precedence} (hls : ∀ i, ls i = none) :
    ∀ {ts : List Tree}, (∀ t ∈ ts, ∀ more, D (t.write more none) t.unplaced) → ts ≠ [] → ∀ i : Nat,
      Separated D (separated (writeAll more ls i ts)) (unplacedAll ts)
  | [], _, hne, _ => absurd rfl hne
  | [t], hts, _, i => by
    have ht := hts t mem_cons_self fun p => more (i :: p)
    rw [writeAll, hls i]
    exact .one _ _ ht
  | t :: u :: us, hts, _, i => by
    have ht := hts t mem_cons_self fun p => more (i :: p)
    have hmore := Separated.written more hls (fun t ht => hts t (mem_cons_of_mem _ ht))
      (cons_ne_nil u us) (i + 1)
    rw [writeAll, hls i]
    exact .cons _ _ (.ofSymbol .comma) _ _ ht rfl hmore

theorem IsDeclarator.written {d : Tree} (h : IsDeclarator N d) (hfit : d.all isFit)
    (more : List Nat → Nat) :
    DerivesDeclarator (d.write more none) d.unplaced := by
  cases h with
  | plain x loc _ => exact .plain (.ofName x) rfl
  | initial x loc a _ ha =>
    have hd := (ha.written (all_of_mem hfit mem_cons_self) fun p => more (0 :: p)).within
      .assignment
    exact .initial (.ofName x) (.ofSymbol .assign) _ _ rfl rfl hd
  | array x loc a _ ha =>
    have hd := (ha.written (all_of_mem hfit mem_cons_self) fun p => more (0 :: p)).within
      .expression
    exact .array (.ofName x) (.ofSymbol .openBracket) (.ofSymbol .closeBracket) _ _ rfl rfl hd rfl

theorem IsDeclaration.written (h : IsDeclaration N IsTypeWord t) (hfit : t.all isFit)
    (more : List Nat → Nat) :
    DerivesDeclaration (t.write more none) t.unplaced := by
  obtain ⟨loc, ty, d, ds, hty, hd, hds⟩ := h
  have hall : ∀ c ∈ d :: ds, ∀ more, DerivesDeclarator (c.write more none) c.unplaced := by
    intro c hc
    have hcfit := all_of_mem hfit (mem_cons_of_mem _ hc)
    rcases mem_cons.mp hc with rfl | hc
    · exact hd.written hcfit
    · exact (hds c hc).written hcfit
  have hnames :
      Separated _ (separated (writeAll more (wants .declaration "VarDeclList" false) 1 (d :: ds)))
      _ :=
    .written more (fun _ => rfl) hall (cons_ne_nil d ds) 1
  obtain ⟨w, hw, hloc, hwrite, hleaf⟩ := hty.write fun p => more (0 :: p)
  have hd := DerivesDeclaration.mk w (.ofSymbol .semicolon) _ _ hw hnames rfl
  rw [hloc, ← hleaf] at hd
  show DerivesDeclaration (ty.write _ none ++ _) _
  rw [hwrite]
  exact hd

theorem Tree.Written.head {more : List Nat → Nat} (h : t.Written more) :
    ∃ w ws, t.write more (some .expression) = w :: ws ∧ w.loc = .start ∧
    Derives .expression (w :: ws) t.unplaced := by
  have hd := h.within .expression
  have hstart := atStart_write more (some .expression) t
  obtain ⟨w, ws, hts, -⟩ := hd.head
  rw [hts] at hd hstart
  exact ⟨w, ws, hts, hstart w mem_cons_self, hd⟩

theorem IsFirst.written (h : IsFirst N IsTypeWord t) (hfit : t.all isFit) (more : List Nat → Nat) :
    DerivesFirst (if (t.write more none).isEmpty then [.ofSymbol .semicolon] else t.write more none)
      t.unplaced := by
  cases h with
  | omitted loc => exact .omitted (.ofSymbol .semicolon) rfl
  | declaration _ h =>
    have hd := h.written hfit more
    obtain ⟨ty, us, hts, -⟩ := hd.head
    rw [hts] at hd ⊢
    exact .declaration _ _ hd
  | expr loc a ha =>
    obtain ⟨w, ws, hts, hloc, hd⟩ :=
      (ha.written (all_of_mem hfit mem_cons_self) fun p => more (0 :: p)).head
    have hfirst := DerivesFirst.expr w (.ofSymbol .semicolon) ws _ hd rfl
    have hwrite : write more none ⟨.exprStmt, "ExprStmt", false, loc, [a]⟩ =
        w :: (ws ++ [.ofSymbol .semicolon]) :=
      congrArg (· ++ [Token.ofSymbol .semicolon]) hts
    rw [hloc] at hfirst
    rw [hwrite]
    exact hfirst

theorem IsOptional.written {c : Token} (hc : c.loc = .start) (h : IsOptional N t)
    (hfit : t.all isFit) (more : List Nat → Nat) :
    DerivesOptional c (t.write more (some .expression)) t.unplaced := by
  cases h with
  | omitted loc =>
    have hd := DerivesOptional.omitted (c := c)
    rw [hc] at hd
    exact hd
  | expr _ h => exact .expr _ _ ((h.written hfit more).within .expression)

mutual

theorem IsStmt.written {t : Tree} : IsStmt N IsTypeWord t → t.all isFit → ∀ more : List Nat → Nat,
    DerivesStmt (t.write more none) t.unplaced
  | .block _ h, hfit, more => .block _ _ (h.written hfit more)
  | .declaration _ h, hfit, more => .declaration _ _ (h.written hfit more)
  | .exprStmt loc a ha, hfit, more => by
    obtain ⟨w, ws, hts, hloc, hd⟩ :=
      (ha.written (all_of_mem hfit mem_cons_self) fun p => more (0 :: p)).head
    have hstmt := DerivesStmt.exprStmt w (.ofSymbol .semicolon) ws _ hd rfl
    rw [hloc, ← cons_append, ← hts] at hstmt
    exact hstmt
  | .returnNothing _, _, _ => .returnNothing (.ofKeyword .returnKw) (.ofSymbol .semicolon) rfl rfl
  | .returnValue loc a ha, hfit, more => by
    have hvalue := (ha.written (all_of_mem hfit mem_cons_self) fun p => more (0 :: p)).within
      .expression
    have hd := DerivesStmt.returnValue (.ofKeyword .returnKw) (.ofSymbol .semicolon)
      _ _ rfl hvalue rfl
    rw [← append_nil (a.write _ _)] at hd
    exact hd
  | .breakStmt _, _, _ => .breakStmt (.ofKeyword .breakKw) (.ofSymbol .semicolon) rfl rfl
  | .continueStmt _, _, _ => .continueStmt (.ofKeyword .continueKw) (.ofSymbol .semicolon) rfl rfl
  | .conditional loc a body rest ha hbody hrest, hfit, more =>
    have hcond := (ha.written (all_of_mem hfit mem_cons_self) fun p => more (0 :: p)).within
      .expression
    have hblock := hbody.written (all_of_mem hfit (by simp)) fun p => more (1 :: p)
    have hbranches := hrest.written (fun t ht => all_of_mem hfit (by simp [ht])) more 0
    .conditional (.ofKeyword .ifKw) (.ofSymbol .openParen) (.ofSymbol .closeParen) _ _ _ _ _ _ rfl
      rfl hcond rfl hblock hbranches
  | .whileLoop loc a body ha hbody, hfit, more =>
    have hcond := (ha.written (all_of_mem hfit mem_cons_self) fun p => more (0 :: p)).within
      .expression
    have hblock := hbody.written (all_of_mem hfit (by simp)) fun p => more (1 :: p)
    .whileLoop (.ofKeyword .whileKw) (.ofSymbol .openParen) (.ofSymbol .closeParen) _ _ _ _ rfl
      rfl hcond rfl hblock
  | .doWhile loc body a hbody ha, hfit, more =>
    have hblock := hbody.written (all_of_mem hfit mem_cons_self) fun p => more (0 :: p)
    have hcond := (ha.written (all_of_mem hfit (by simp)) fun p => more (1 :: p)).within .expression
    .doWhile (.ofKeyword .doKw) (.ofKeyword .whileKw) (.ofSymbol .openParen) (.ofSymbol .closeParen)
      (.ofSymbol .semicolon) _ _ _ _
      rfl hblock rfl rfl hcond rfl rfl
  | .forLoop loc first a step body hfirst ha hstep hbody, hfit, more =>
    have hbegin := hfirst.written (all_of_mem hfit mem_cons_self) fun p => more (0 :: p)
    have hcond := ha.written (c := .ofSymbol .semicolon) rfl (all_of_mem hfit (by simp))
      fun p => more (1 :: p)
    have hnext := hstep.written (c := .ofSymbol .closeParen) rfl (all_of_mem hfit (by simp))
      fun p => more (2 :: p)
    have hblock := hbody.written (all_of_mem hfit (by simp)) fun p => more (3 :: p)
    .forLoop (.ofKeyword .forKw) (.ofSymbol .openParen) (.ofSymbol .semicolon)
      (.ofSymbol .closeParen) _ _ _ _ _ _ _ _ rfl rfl
      hbegin hcond rfl hnext rfl hblock

theorem IsBlock.written {t : Tree} : IsBlock N IsTypeWord t → t.all isFit → ∀ more : List Nat → Nat,
    DerivesBlock (t.write more none) t.unplaced
  | .mk _ ts hts, hfit, more =>
    .mk (.ofSymbol .openBrace) (.ofSymbol .closeBrace) _ _ rfl
      (hts.written (fun _ ht => all_of_mem hfit ht) more 0) rfl

theorem AreStmts.written {ts : List Tree} :
    AreStmts N IsTypeWord ts → (∀ t ∈ ts, t.all isFit) → ∀ (more : List Nat → Nat) (i : Nat),
    DerivesStmts (writeAll more (wants .block "Block" false) i ts).flatten (unplacedAll ts)
  | .nil, _, _, _ => .nil
  | .cons t ts ht hts, hfit, more, i =>
    .cons _ _ _ _ (ht.written (hfit t mem_cons_self) fun p => more (i :: p))
      (hts.written (fun t ht => hfit t (mem_cons_of_mem _ ht)) more (i + 1))

theorem AreBranches.written {ts : List Tree} :
    AreBranches N IsTypeWord ts → (∀ t ∈ ts, t.all isFit) →
    ∀ (more : List Nat → Nat) (i : Nat),
    DerivesBranches ((writeAll more (wants .conditional "If" false) (i + 2) ts).flatMap fun us =>
      .ofKeyword .elseKw :: us) (unplacedAll ts)
  | .nil, _, _, _ => .nil
  | .last body h, hfit, more, i => by
    have hd := DerivesBranches.last (.ofKeyword .elseKw) _ _ rfl
      (h.written (hfit body mem_cons_self) fun p => more ((i + 2) :: p))
    rw [← append_nil (_ :: _)] at hd
    exact hd
  | .elseIf loc a body ts ha hbody hts, hfit, more, i => by
    have hmine := hfit _ mem_cons_self
    have hcond :=
      (ha.written (all_of_mem hmine mem_cons_self) fun p => more ((i + 2) :: 0 :: p)).within
        .expression
    have hblock := hbody.written (all_of_mem hmine (by simp)) fun p => more ((i + 2) :: 1 :: p)
    have hmore := hts.written (fun t ht => hfit t (mem_cons_of_mem _ ht)) more (i + 1)
    have hd := DerivesBranches.elseIf (.ofKeyword .elseKw) (.ofKeyword .ifKw) (.ofSymbol .openParen)
      (.ofSymbol .closeParen) _ _ _ _ _
      _ rfl rfl rfl hcond rfl hblock hmore
    show DerivesBranches (_ :: _ :: _ :: (a.write _ _ ++ _ :: body.write _ _ ++ _)) _
    rw [append_assoc]
    exact hd

end

/-! ## Programs -/

theorem IsParameter.written (h : IsParameter N IsTypeWord t) (more : List Nat → Nat) :
    DerivesParameter (t.write more none) t.unplaced := by
  obtain ⟨x, isArray, loc, ty, -, hty⟩ := h
  obtain ⟨w, hw, hloc, hwrite, hleaf⟩ := hty.write fun p => more (0 :: p)
  show DerivesParameter (ty.write _ none ++ _) ⟨_, _, _, _, [ty.unplaced]⟩
  rw [hwrite, hleaf, ← hloc]
  cases isArray with
  | false => exact .plain w (.ofName x) hw rfl
  | true =>
    exact .array w (.ofName x) (.ofSymbol .openBracket) (.ofSymbol .closeBracket) hw rfl rfl rfl

theorem writeAll_append (more : List Nat → Nat) (ls : Nat → Option Precedence) (i : Nat)
    (ts us : List Tree) :
    writeAll more ls i (ts ++ us) = writeAll more ls i ts ++ writeAll more ls
      (i + ts.length) us := by
  induction ts generalizing i with
  | nil => rfl
  | cons t ts ih =>
    rw [cons_append, writeAll, writeAll, ih, cons_append, length_cons, Nat.add_right_comm,
      Nat.add_assoc]

theorem IsFunction.written (h : IsFunction N IsTypeWord t) (hfit : t.all isFit)
    (more : List Nat → Nat) :
    DerivesFunction (t.write more none) t.unplaced := by
  obtain ⟨f, loc, ty, ps, body, -, hty, hps, hbody⟩ := h
  obtain ⟨w, hw, -, hwrite, hleaf⟩ := hty.write fun p => more (0 :: p)
  have hblock := hbody.written (all_of_mem hfit (by simp)) fun p => more ((1 + ps.length) :: p)
  have hparams : DerivesParameters (separated (writeAll more (wants .function f false) 1 ps) ++
      [.ofSymbol .closeParen]) (unplacedAll ps) := by
    cases ps with
    | nil => exact .none (.ofSymbol .closeParen) rfl
    | cons p ps =>
      exact .some _ (.ofSymbol .closeParen) _
        (.written more (fun _ => rfl) (fun p hp => (hps p hp).written) (cons_ne_nil p ps) 1) rfl
  have hd := DerivesFunction.mk (.ofKeyword .fnKw) w (.ofName f) (.ofSymbol .openParen) _ _ _ _ rfl
    hw rfl rfl hparams hblock
  have hparts : writeAll more (wants .function f false) 1 (ps ++ [body]) =
      writeAll more (wants .function f false) 1 ps ++
          [body.write (fun p => more ((1 + ps.length) :: p)) none] :=
    writeAll_append more _ 1 ps [body]
  rw [append_assoc] at hd
  show DerivesFunction (_ :: (ty.write _ none ++
    _ :: inParens (separated (writeAll _ _ 1 (ps ++ [body])).dropLast)
      ((writeAll _ _ 1 (ps ++ [body])).getLastD [])))
    ⟨_, _, _, _, ty.unplaced :: unplacedAll (ps ++ [body])⟩
  rw [hwrite, hleaf, hparts, dropLast_concat, getLastD_concat, unplacedAll_append]
  exact hd

theorem IsItem.written_items {ts : List Tree} (h : ∀ t ∈ ts, IsItem N IsTypeWord t)
    (hfit : ∀ t ∈ ts, t.all isFit) (more : List Nat → Nat) (x : String) (i : Nat) :
    DerivesItems (writeAll more (wants .program x false) i ts).flatten (unplacedAll ts) := by
  induction ts generalizing i with
  | nil => exact .nil
  | cons t ts ih =>
    have hmore := ih (fun t ht => h t (mem_cons_of_mem _ ht))
      (fun t ht => hfit t (mem_cons_of_mem _ ht)) (i + 1)
    have ht := hfit t mem_cons_self
    match h t mem_cons_self with
    | .function _ hf => exact .function _ _ _ _ (hf.written ht fun p => more (i :: p)) hmore
    | .stmt _ hs => exact .stmt _ _ _ _ (hs.written ht fun p => more (i :: p)) hmore

inductive IsProgram (N T : String → Prop) : Tree → Prop
  | mk (loc : Loc) (ts : List Tree) : (∀ t ∈ ts, IsItem N T t) →
    IsProgram N T { kind := .program, text := "Program", loc, children := ts }

theorem Parser.upcoming_unplaced {e : Token} (he : e.kind = .endOfInput) {ends : List Token}
    (hends : ∀ t ∈ ends.head?, t.kind = .endOfInput) (tokens : List Token) :
    Upcoming (fun _ _ => True) (fun _ _ => True) e e (tokens ++ ends)
      (tokens.map Token.unplaced) := by
  induction tokens with
  | nil =>
    have hlast : (ends.headD e).kind = .endOfInput := by
      cases ends with
      | nil => exact he
      | cons t _ => exact hends t rfl
    exact .stop _ _ hlast ⟨he.trans hlast.symm, fun hne => absurd hlast hne, trivial, trivial⟩
  | cons t ts ih =>
    have hlike : TokenLike (fun _ _ => True) (fun _ _ => True) t t.unplaced :=
      ⟨rfl, fun _ => rfl, trivial, trivial⟩
    by_cases ht : t.kind = .endOfInput
    · exact .stop _ _ ht hlike
    · exact .more _ _ _ _ ht hlike ih

/-- **What is written of a program is parsed into that program again**, with any spare parentheses,
wherever the tokens stand. -/
theorem parse_write {t : Tree} (h : IsProgram N IsTypeWord t) (hfit : t.all isFit)
    (more : List Nat → Nat) {tokens ends : List Token}
    (htokens : tokens.map Token.unplaced = t.write more none)
    (hends : ∀ e ∈ ends.head?, e.kind = .endOfInput) :
    (Tree.parse (tokens ++ ends)).2 = #[] ∧ (Tree.parse (tokens ++ ends)).1.same t := by
  obtain ⟨loc, ts, hitems⟩ := h
  let s := Parser.State.ofTokens (tokens ++ ends)
  have hread : Parser.program (.ahead s.fallback (tokens.map Token.unplaced)) =
      (Tree.unplaced ⟨.program, "Program", false, loc, ts⟩, .ahead s.fallback []) := by
    have hlast : Parser.nextKind s.fallback [] = .endOfInput := rfl
    have hitems :=
      (IsItem.written_items hitems (fun t ht => all_of_mem hfit ht) more "Program" 0).program hlast
    rw [htokens, ← List.append_nil (Tree.write ..)]
    exact hitems
  have hlevel : s.Level (fun _ _ => True) (fun _ _ => True)
      (.ahead s.fallback (tokens.map Token.unplaced)) :=
    ⟨rfl, Parser.upcoming_unplaced rfl hends tokens, rfl, trivial, .nil⟩
  obtain ⟨hlike, hafter⟩ := Parser.program_lockstep trivial hlevel
  rw [hread] at hlike hafter
  refine ⟨?_, ?_⟩
  · have herrors := hafter.errors_like
    show (Parser.program s).2.errors = #[]
    rw [← Array.toList_eq_nil_iff]
    generalize (Parser.program s).2.errors.toList = es at herrors
    cases herrors
    rfl
  · exact (same_unplaced _ _).symm.trans hlike.same

/-- A source with parentheses that are needed. -/
def nested : String := "if (x) { y[x] = x = -(1 - (2 - 3)) * f((1, 2)), 4; }"

/-- Spare parentheses around every expression of an even depth. -/
def spare (p : List Nat) : Nat := if p.length % 2 = 0 then 1 else 0

theorem nested_parse_write :
    (Tree.parse (Token.scan nested)).2 = #[] ∧ (Tree.parse (Token.scan nested)).1.all isFit ∧
    (Tree.parse ((Tree.parse (Token.scan nested)).1.write spare none)).2 = #[] ∧
      (Tree.parse ((Tree.parse (Token.scan nested)).1.write spare none)).1.same
        (Tree.parse (Token.scan nested)).1 := by
  have hfacts : (Tree.parse (Token.scan nested)).2 = #[] ∧
      (Tree.parse (Token.scan nested)).1.all isFit := by
    rw [Token.scan_ofList nested rfl]
    decide +kernel
  obtain ⟨herrors, hfit⟩ := hfacts
  have hprogram : IsProgram IsName IsTypeWord (Tree.parse (Token.scan nested)).1 :=
    .mk _ _ (parse_isItem standIns_source (Token.scan_fits nested))
  rw [← List.append_nil (Tree.write ..)]
  exact ⟨herrors, hfit, parse_write hprogram hfit spare (map_unplaced_write ..)
    fun _ h => nomatch h⟩

end Stacklet
