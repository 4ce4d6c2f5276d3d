import Stacklet.Proofs.Typing.Items
/-!
# Names end with their scopes

* `Checker.Keeps`: checks that declare nothing. `keeps_combining`: all checks of expressions,
  conditions and `return`s.
* `Tree.isEnclosed`: statements whose branches are blocks, and which are no declarations. Their
  checks declare nothing behind them (`keeps_statement`).
* `Checker.check_extends`: what is left of a state behind the check of any tree.
-/

namespace Stacklet

open List

/-- Whether a branch of a conditional is a block: the block itself, or one behind another
condition. -/
def Tree.isBlockBranch (t : Tree) : Bool :=
  t.kind == .block || t.kind == .elseIf && t.children.tail.all (·.kind == .block)

/-- Whether a statement declares nothing in the scope around it: it is not a declaration, and its
branches are blocks. The branches of a `for` loop are in a scope of their own. -/
def Tree.isEnclosed (t : Tree) : Bool :=
  match t.kind with
  | .declaration => false
  | .conditional => t.children.tail.all isBlockBranch
  | .whileLoop => t.children.tail.all (·.kind == .block)
  | .doWhile => t.children.head?.all (·.kind == .block)
  | _ => true

namespace Checker

variable {α : Type} {t : Tree} {ts : List Tree}

/-- A check that leaves the scopes as they are. -/
def Keeps (x : Checker α) : Prop := ∀ s, (x s).2.scopes = s.scopes

theorem keeps_combining : Combining Eq fun x _ => Keeps x where
  pure_rel _ _ := rfl
  bind_rel hx hf s := (hf _ _).trans (hx s)
  around_rel _ _ hf s := hf _ _ _ s
  lookup_rel _ _ := rfl
  report_rel _ _ _ := rfl
  nameTy_rel x _ s := by
    rcases hx : s.scopes.lookup? x with _ | e
    · rw [nameTy_of_none hx, State.note]
      split <;> rfl
    · rw [nameTy, lookup_bind, hx]
      cases e <;> rfl

theorem keeps_inScope (x : Checker Unit) [Steady x] : Keeps (inScope x) := scopes_inScope x

theorem Keeps.inLoop {x : Checker Unit} (hx : Keeps x) : Keeps (inLoop x) :=
  fun s => hx { s with loopDepth := s.loopDepth + 1 }

theorem Keeps.seq {x y : Checker Unit} (hx : Keeps x) (hy : Keeps y) : Keeps (x >>= fun _ => y) :=
  fun s => (hy _).trans (hx s)

theorem keeps_expression (t : Tree) : Keeps (expression t) :=
  keeps_combining.expression_rel (.refl t)

theorem keeps_condition (c : Construct) (t : Tree) : Keeps (condition c t) :=
  keeps_combining.condition_rel (.refl t) c

theorem keeps_block (h : t.kind = .block) : Keeps (statement t) := by
  obtain ⟨kind, text, isArray, loc, ts⟩ := t
  cases h
  exact keeps_inScope (statements ts)

theorem keeps_blocks (h : ts.all (·.kind == .block)) : Keeps (statements ts) := by
  induction ts with
  | nil => exact fun _ => rfl
  | cons t ts ih =>
    simp only [all_cons, Bool.and_eq_true, beq_iff_eq] at h
    exact (keeps_block h.1).seq (ih h.2)

theorem keeps_branchStatements (h : ts.all Tree.isBlockBranch) : Keeps (branchStatements ts) := by
  induction ts with
  | nil => exact fun _ => rfl
  | cons t ts ih =>
    simp only [all_cons, Bool.and_eq_true, Tree.isBlockBranch, Bool.or_eq_true, beq_iff_eq] at h
    obtain ⟨ht, hts⟩ := h
    obtain ⟨kind, text, isArray, loc, us⟩ := t
    rcases ht with rfl | ⟨rfl, hus⟩
    · exact (keeps_block (t := ⟨.block, text, isArray, loc, us⟩) rfl).seq (ih hts)
    · cases us with
      | nil => exact ih hts
      | cons c bodies =>
        unfold branchStatements
        exact (keeps_condition _ c).seq ((keeps_blocks hus).seq (ih hts))

theorem keeps_statement (h : t.isEnclosed) : Keeps (statement t) := by
  obtain ⟨kind, text, isArray, loc, ts⟩ := t
  have hexpr := keeps_expression ⟨kind, text, isArray, loc, ts⟩
  unfold statement
  cases kind with
  | declaration => cases h
  | exprStmt =>
    cases ts with
    | nil => exact fun _ => rfl
    | cons e _ => exact keeps_expression e
  | block => exact keeps_inScope _
  | forLoop => exact keeps_inScope _
  | returnStmt => exact keeps_combining.returnValue_rel rfl (.refl ts)
  | breakStmt | continueStmt => exact keeps_combining.requireLoop_rel rfl rfl
  | conditional =>
    cases ts with
    | nil => exact fun _ => rfl
    | cons c branches => exact (keeps_condition _ c).seq (keeps_branchStatements h)
  | whileLoop =>
    cases ts with
    | nil => exact fun _ => rfl
    | cons c bodies => exact (keeps_condition _ c).seq (keeps_blocks h).inLoop
  | doWhile =>
    cases ts with
    | nil => exact fun _ => rfl
    | cons body cs =>
      have hbody : Keeps (inLoop (statement body)) := (keeps_block (beq_iff_eq.mp h)).inLoop
      cases cs with
      | nil => exact hbody
      | cons c _ => exact hbody.seq (keeps_condition _ c)
  | function | parameter | elseIf | declarator | typeName | program | empty => exact fun _ => rfl
  | _ => exact hexpr

/-- **A check leaves the scopes around it alone**, whatever the tree and the state are. A statement
or an expression adds names to the innermost scope only and changes no entry of it. An expression
adds none, and neither does a statement that is enclosed. So behind a block, a `for` loop and a
function each name stands for what it stood for before. -/
theorem check_extends (t : Tree) (s : State) :
    (s.Extends (statement t s).2 ∧ s.Extends (expression t s).2) ∧
      (expression t s).2.scopes = s.scopes ∧
      (t.isEnclosed → (statement t s).2.scopes = s.scopes) ∧
      (t.kind = .block ∨ t.kind = .forLoop →
        ∀ x, (statement t s).2.scopes.lookup? x = s.scopes.lookup? x) ∧
      ∀ x, (function t s).2.scopes.lookup? x = s.scopes.lookup? x := by
  refine ⟨⟨Steady.extend s, Steady.extend s⟩, keeps_expression t s,
    fun h => keeps_statement h s, ?_, ?_⟩
  · intro hk x
    have h : t.isEnclosed := by
      unfold Tree.isEnclosed
      rcases hk with hk | hk <;> rw [hk]
    rw [keeps_statement h s]
  · intro x
    rw [function_apply]
    exact congrArg (Scopes.lookup? · x) (scopes_insideFunction t _)

/-- The statement `if (1) { int x; }`. -/
def declaringBranch : Tree :=
  ⟨.conditional, "If", false, .start,
    [⟨.number, "1", false, .start, []⟩, ⟨.block, "Block", false, .start,
    [⟨.declaration, "VarDeclList", false, .start,
      [⟨.typeName, "int", false, .start, []⟩, ⟨.declarator, "x", false, .start, []⟩]⟩]⟩]⟩

theorem declaringBranch_check_extends : declaringBranch.isEnclosed ∧
    ∀ s : State, (statement declaringBranch s).2.scopes = s.scopes :=
  ⟨rfl, fun s => (check_extends declaringBranch s).2.2.1 rfl⟩

end Checker

end Stacklet
