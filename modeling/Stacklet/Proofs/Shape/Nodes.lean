import Stacklet.Proofs.Height.Code
/-!
# What stands below each node

* `Tree.isShaped`: whether the children of one node are of the kinds that its kind asks for, as many
  and in this order.
* `IsExpr.shaped`, `IsStmt.shaped`, `IsFunction.shaped`: this holds of every node of an expression,
  a statement and a function.
* `parse_isShaped`: it holds of every node of a parsed tree, whatever the tokens are.
-/

namespace Stacklet

open List

variable {t : Tree}

namespace Tree

def Kind.isExpr : Kind → Bool
  | .number | .string | .identifier | .unary | .binary | .comma | .assign | .call | .index => true
  | _ => false

def Kind.isStmt : Kind → Bool
  | .block | .declaration | .exprStmt | .returnStmt | .breakStmt | .continueStmt | .conditional
  | .whileLoop | .doWhile
  | .forLoop => true
  | _ => false

def Kind.isItem (k : Kind) : Bool := k == .function || k.isStmt

/-- Whether nodes of this kind may start the header of a `for` loop. -/
def Kind.isFirst : Kind → Bool
  | .declaration | .exprStmt | .empty => true
  | _ => false

/-- Whether nodes of this kind stand where an expression may be left out. -/
def Kind.isOptional (k : Kind) : Bool := k == .empty || k.isExpr

/-- Whether these are the kinds of what follows the first block of a conditional: any number of
branches with a condition, and at most one block behind them. -/
def Kind.areBranches : List Kind → Bool
  | [] | [.block] => true
  | k :: ks => k == .elseIf && areBranches ks

/-- Whether these are the kinds of what follows the return type of a function: parameters and a
block. -/
def Kind.areParameters : List Kind → Bool
  | [] => false
  | [k] => k == .block
  | k :: ks => k == .parameter && areParameters ks

/-- Whether children of these kinds may stand below a node of kind `k`. -/
def Kind.takes (k : Kind) (isArray : Bool) (ks : List Kind) : Bool :=
  match k, ks with
  | .program, ks => ks.all isItem
  | .function, .typeName :: ks => areParameters ks
  | .parameter, [.typeName] => true
  | .block, ks => ks.all isStmt
  | .declaration, .typeName :: .declarator :: ks => ks.all (· == .declarator)
  | .declarator, [] => !isArray
  | .declarator, [k] | .unary, [k] | .exprStmt, [k] | .returnStmt, [k] | .elseIf, [k, .block]
  | .whileLoop, [k, .block]
  | .doWhile, [.block, k] => k.isExpr
  | .conditional, k :: .block :: ks => k.isExpr && areBranches ks
  | .forLoop, [first, c, step, .block] => first.isFirst && c.isOptional && step.isOptional
  | .assign, [k, k'] | .comma, [k, k'] | .binary, [k, k'] => k.isExpr && k'.isExpr
  | .call, k :: ks => isSuffixable k && ks.all isExpr
  | .index, [k, k'] => isSuffixable k && k'.isExpr
  | .returnStmt, [] | .breakStmt, [] | .continueStmt, [] | .number, [] | .string, []
  | .identifier, [] | .typeName, []
  | .empty, [] => true
  | _, _ => false

/-- Whether the children of a node are what its kind asks for. Only declared names and parameters
are arrays. -/
def isShaped (t : Tree) : Bool :=
  t.kind.takes t.isArray (t.children.map kind) &&
    (!t.isArray || t.kind == .declarator || t.kind == .parameter)

/-- A tree whose root is of a kind with `p`, and all of whose nodes have their shape. -/
structure Shaped (p : Kind → Bool) (t : Tree) : Prop where
  kind : p t.kind
  all : t.all isShaped

namespace Shaped

variable {p q : Kind → Bool} {k : Kind} {x : String} {isArray : Bool} {loc : Loc} {t : Tree}
  {ts : List Tree}

theorem mk' (hk : p k) (htakes : k.takes isArray (ts.map Tree.kind))
    (harray : isArray → k = .declarator ∨ k = .parameter) (hts : ∀ t ∈ ts, t.all isShaped) :
    Shaped p ⟨k, x, isArray, loc, ts⟩ := by
  refine ⟨hk, all_iff.mpr ⟨?_, hts⟩⟩
  show (k.takes isArray (ts.map Tree.kind) && _) = true
  rw [htakes, Bool.true_and]
  cases isArray with
  | false => rfl
  | true => simpa using harray rfl

theorem node (hk : p k) (htakes : k.takes false (ts.map Tree.kind))
    (hts : ∀ t ∈ ts, t.all isShaped) :
    Shaped p ⟨k, x, false, loc, ts⟩ :=
  mk' hk htakes (fun h => absurd h Bool.false_ne_true) hts

theorem mono (h : t.Shaped p) (hpq : ∀ k, p k → q k) : t.Shaped q := ⟨hpq _ h.kind, h.all⟩

theorem kinds_all (h : ∀ t ∈ ts, t.Shaped p) : (ts.map Tree.kind).all p := by
  rw [all_map, all_eq_true]
  exact fun t ht => (h t ht).kind

theorem all_nodes (h : ∀ t ∈ ts, t.Shaped p) : ∀ t ∈ ts, t.all isShaped := fun t ht => (h t ht).all

end Shaped

end Tree

open Stacklet.Tree

variable {N T : String → Prop}

/-! ## Expressions -/

mutual

theorem IsExpr.shaped {t : Tree} : IsExpr N t → t.Shaped Kind.isExpr
  | .number _ _ => .node rfl rfl (by simp)
  | .string _ _ => .node rfl rfl (by simp)
  | .identifier _ _ _ => .node rfl rfl (by simp)
  | .unary _ _ _ h => .node rfl h.shaped.kind (by simp [h.shaped.all])
  | .binary _ _ _ _ hl hr =>
    .node rfl (by simp [Kind.takes, hl.shaped.kind, hr.shaped.kind])
      (by simp [hl.shaped.all, hr.shaped.all])
  | .comma _ _ _ hl hr =>
    .node rfl (by simp [Kind.takes, hl.shaped.kind, hr.shaped.kind])
      (by simp [hl.shaped.all, hr.shaped.all])
  | .assign _ _ _ hl hr =>
    .node rfl (by simp [Kind.takes, hl.shaped.kind, hr.shaped.kind])
      (by simp [hl.shaped.all, hr.shaped.all])
  | .call _ f args hf hk hargs =>
    .node rfl (by simpa [Kind.takes, hk] using fun t ht => (hargs.shaped t ht).kind)
      (forall_mem_cons.mpr ⟨hf.shaped.all, Shaped.all_nodes hargs.shaped⟩)
  | .index _ _ _ hb hk hi =>
    .node rfl (by simp [Kind.takes, hk, hi.shaped.kind]) (by simp [hb.shaped.all, hi.shaped.all])

theorem AreExprs.shaped {ts : List Tree} : AreExprs N ts → ∀ t ∈ ts, t.Shaped Kind.isExpr
  | .nil => by simp
  | .cons _ _ ht hts => forall_mem_cons.mpr ⟨ht.shaped, hts.shaped⟩

end

/-! ## Statements -/

theorem IsType.shaped (h : IsType T t) : t.Shaped (· == .typeName) := by
  obtain ⟨x, loc, -⟩ := h
  exact .node rfl rfl (by simp)

theorem IsDeclarator.shaped (h : IsDeclarator N t) : t.Shaped (· == .declarator) := by
  cases h with
  | plain x loc _ => exact .node rfl rfl (by simp)
  | initial x loc a _ ha => exact .node rfl ha.shaped.kind (by simp [ha.shaped.all])
  | array x loc a _ ha =>
    exact .mk' rfl ha.shaped.kind (fun _ => .inl rfl) (by simp [ha.shaped.all])

theorem IsDeclaration.shaped (h : IsDeclaration N T t) : t.Shaped (· == .declaration) := by
  obtain ⟨loc, ty, d, ds, hty, hd, hds⟩ := h
  have hds (t : Tree) (ht : t ∈ ds) := (hds t ht).shaped
  have htakes : Kind.takes .declaration false ((ty :: d :: ds).map Tree.kind) := by
    rw [map_cons, map_cons, eq_of_beq hty.shaped.kind, eq_of_beq hd.shaped.kind]
    exact Shaped.kinds_all hds
  exact .node rfl htakes (forall_mem_cons.mpr
    ⟨hty.shaped.all, forall_mem_cons.mpr ⟨hd.shaped.all, Shaped.all_nodes hds⟩⟩)

theorem shaped_omitted (loc : Loc) : (Tree.omitted loc).Shaped (· == .empty) :=
  .node rfl rfl (by simp)

theorem IsFirst.shaped (h : IsFirst N T t) : t.Shaped Kind.isFirst := by
  cases h with
  | omitted loc => exact (shaped_omitted loc).mono fun k hk => eq_of_beq hk ▸ rfl
  | declaration _ h => exact h.shaped.mono fun k hk => eq_of_beq hk ▸ rfl
  | expr loc a ha => exact .node rfl ha.shaped.kind (by simp [ha.shaped.all])

theorem IsOptional.shaped (h : IsOptional N t) : t.Shaped Kind.isOptional := by
  cases h with
  | omitted loc => exact (shaped_omitted loc).mono fun k hk => eq_of_beq hk ▸ rfl
  | expr _ h => exact h.shaped.mono fun k hk => by simp [Kind.isOptional, hk]

mutual

theorem IsStmt.shaped {t : Tree} : IsStmt N T t → t.Shaped Kind.isStmt
  | .block _ h => h.shaped.mono fun _ hk => eq_of_beq hk ▸ rfl
  | .declaration _ h => h.shaped.mono fun _ hk => eq_of_beq hk ▸ rfl
  | .exprStmt _ _ h => .node rfl h.shaped.kind (by simp [h.shaped.all])
  | .returnNothing _ => .node rfl rfl (by simp)
  | .returnValue _ _ h => .node rfl h.shaped.kind (by simp [h.shaped.all])
  | .breakStmt _ => .node rfl rfl (by simp)
  | .continueStmt _ => .node rfl rfl (by simp)
  | .conditional _ c body rest hc hbody hrest => by
    obtain ⟨hkinds, hall⟩ := hrest.shaped
    have htakes : Kind.takes .conditional false ((c :: body :: rest).map Tree.kind) := by
      rw [map_cons, map_cons, eq_of_beq hbody.shaped.kind]
      simp only [Kind.takes, hc.shaped.kind, hkinds, Bool.and_self]
    exact .node rfl htakes (forall_mem_cons.mpr
      ⟨hc.shaped.all, forall_mem_cons.mpr ⟨hbody.shaped.all, hall⟩⟩)
  | .whileLoop _ c body hc hbody => by
    refine .node rfl ?_ (by simp [hc.shaped.all, hbody.shaped.all])
    rw [map_cons, map_singleton, eq_of_beq hbody.shaped.kind]
    exact hc.shaped.kind
  | .doWhile _ body c hbody hc => by
    refine .node rfl ?_ (by simp [hc.shaped.all, hbody.shaped.all])
    rw [map_cons, map_singleton, eq_of_beq hbody.shaped.kind]
    exact hc.shaped.kind
  | .forLoop _ first c step body hfirst hc hstep hbody => by
    refine .node rfl ?_
      (by simp [hfirst.shaped.all, hc.shaped.all, hstep.shaped.all, hbody.shaped.all])
    simp only [map_cons, map_nil, eq_of_beq hbody.shaped.kind, Kind.takes, hfirst.shaped.kind,
      hc.shaped.kind, hstep.shaped.kind, Bool.and_self]

theorem IsBlock.shaped {t : Tree} : IsBlock N T t → t.Shaped (· == .block)
  | .mk _ _ hts => .node rfl (Shaped.kinds_all hts.shaped) (Shaped.all_nodes hts.shaped)

theorem AreStmts.shaped {ts : List Tree} : AreStmts N T ts → ∀ t ∈ ts, t.Shaped Kind.isStmt
  | .nil => by simp
  | .cons _ _ ht hts => forall_mem_cons.mpr ⟨ht.shaped, hts.shaped⟩

theorem AreBranches.shaped {ts : List Tree} : AreBranches N T ts →
    Kind.areBranches (ts.map Tree.kind) ∧ ∀ t ∈ ts, t.all isShaped
  | .nil => ⟨rfl, by simp⟩
  | .last body h => by
    refine ⟨?_, by simp [h.shaped.all]⟩
    rw [map_singleton, eq_of_beq h.shaped.kind]
    rfl
  | .elseIf loc c body ts hc hbody hts => by
    obtain ⟨hkinds, hall⟩ := hts.shaped
    have hbranch : Shaped (· == .elseIf) ⟨.elseIf, "ElseIf", false, loc, [c, body]⟩ := by
      refine .node rfl ?_ (by simp [hc.shaped.all, hbody.shaped.all])
      rw [map_cons, map_singleton, eq_of_beq hbody.shaped.kind]
      exact hc.shaped.kind
    refine ⟨?_, forall_mem_cons.mpr ⟨hbranch.all, hall⟩⟩
    rw [map_cons]
    simpa [Kind.areBranches] using hkinds

end

/-! ## Programs -/

theorem IsParameter.shaped (h : IsParameter N T t) : t.Shaped (· == .parameter) := by
  obtain ⟨x, isArray, loc, ty, -, hty⟩ := h
  refine .mk' rfl ?_ (fun _ => .inr rfl) (by simp [hty.shaped.all])
  rw [map_singleton, eq_of_beq hty.shaped.kind]
  rfl

theorem areParameters_concat {ps : List Tree} (hps : ∀ p ∈ ps, p.Shaped (· == .parameter)) :
    Kind.areParameters (ps.map Tree.kind ++ [.block]) := by
  induction ps with
  | nil => rfl
  | cons p ps ih =>
    obtain ⟨hp, hps⟩ := forall_mem_cons.mp hps
    have ih := ih hps
    rw [map_cons, cons_append, eq_of_beq hp.kind]
    obtain ⟨k, ks, hks⟩ : ∃ k ks, ps.map Tree.kind ++ [.block] = k :: ks :=
      exists_cons_of_ne_nil (append_ne_nil_of_right_ne_nil _ (cons_ne_nil _ _))
    rw [hks] at ih ⊢
    exact ih

theorem IsFunction.shaped (h : IsFunction N T t) : t.Shaped (· == .function) := by
  obtain ⟨f, loc, ty, ps, body, -, hty, hps, hbody⟩ := h
  have hps (p : Tree) (hp : p ∈ ps) := (hps p hp).shaped
  refine .node rfl ?_ (forall_mem_cons.mpr
    ⟨hty.shaped.all, forall_mem_append.mpr ⟨Shaped.all_nodes hps, ?_⟩⟩)
  · rw [map_cons, map_append, map_singleton, eq_of_beq hty.shaped.kind, eq_of_beq hbody.shaped.kind]
    exact areParameters_concat hps
  · simp [hbody.shaped.all]

theorem IsItem.shaped (h : IsItem N T t) : t.Shaped Kind.isItem := by
  cases h with
  | function h => exact h.shaped.mono fun k hk => eq_of_beq hk ▸ rfl
  | stmt h => exact h.shaped.mono fun k hk => by simp [Kind.isItem, hk]

/-- **Every node of a parsed tree has its shape**, whatever the tokens are. -/
theorem parse_isShaped (tokens : List Token) :
    (Tree.parse tokens).1.kind = .program ∧ (Tree.parse tokens).1.all isShaped := by
  have hstand : StandIns (fun _ => True) fun _ => True := ⟨trivial, trivial⟩
  have hitems (t : Tree) (ht : t ∈ (Tree.parse tokens).1.children) : t.Shaped Kind.isItem :=
    (parse_isItem hstand (fun _ _ => ⟨fun _ => trivial, fun _ => trivial⟩) t ht).shaped
  refine ⟨rfl, (Shaped.node (p := (· == .program)) rfl ?_ (Shaped.all_nodes hitems)).all⟩
  exact Shaped.kinds_all hitems

end Stacklet
