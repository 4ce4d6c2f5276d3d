import Stacklet.Proofs.Emission.Statement
import Stacklet.Proofs.Typing.Rules
/-!
# The code of each form

The code of expressions and statements of the forms that programs without errors are made of.

* `code_number`, `code_name`, `code_assign`, …: expressions. What is put on the stack and not wanted
  is dropped (`dropped`).
* `statement_block`, `statement_whileLoop`, …: statements, as the constructs of lowering.
-/

namespace Stacklet.Emit

/-! ## Expressions -/

def dropped (d : Demand) : List Instr := if d = .effect then [.pop] else []

def unaryCode : String → List Instr
  | "-" => [.neg]
  | "!" => [.not]
  | _ => []

@[simp] theorem code_settle (loc : Loc) (d : Demand) (s : State) :
    code (settle loc d) s = dropped d := by
  unfold settle dropped
  split <;> rfl

@[simp] theorem code_unaryOp (loc : Loc) (op : String) (s : State) :
    code (unaryOp loc op) s = unaryCode op := by
  by_cases hneg : op = "-"
  · subst hneg
    rfl
  by_cases hnot : op = "!"
  · subst hnot
    rfl
  simp [unaryOp, unaryCode]

/-- Whether a call of `f` leaves a value on the stack. -/
def State.leavesValue (s : State) (f : String) : Bool :=
  match Builtin.ofName? f with
  | some b => b.returns != .void
  | none => s.valued.contains f

@[simp] theorem result_returnsValue (f : String) (s : State) :
    (returnsValue f s).1 = s.leavesValue f := by
  rw [returnsValue_apply]
  rfl

variable (loc : Loc) (d : Demand) (s : State)

attribute [local simp] expression values sequence initialValue statement statements branches

theorem code_number (text : String) :
    code (expression ⟨.number, text, false, loc, []⟩ d) s = literal text d :: dropped d := by
  simp

theorem code_string (text : String) :
    code (expression ⟨.string, text, false, loc, []⟩ d) s = .pushString text :: dropped d := by
  simp

theorem code_name (x : String) :
    code (expression (.nameAt x loc) d) s = .load (s.slotOf x) :: dropped d := by
  simp [Tree.nameAt]

theorem code_unary (op : String) (e : Tree) :
    code (expression ⟨.unary, op, false, loc, [e]⟩ d) s =
      code (expression e (.ofDouble (d = .double ∧ op = "-"))) s ++
        (unaryCode op ++ dropped d) := by
  simp

theorem code_values_nil : code (values []) s = [] := by simp

theorem code_values_cons (t : Tree) (ts : List Tree) :
    code (values (t :: ts)) s = code (expression t .value) s ++ code (values ts)
      (after (expression t .value) s) := by
  simp

theorem code_binary (op : String) (l r : Tree) :
    code (expression ⟨.binary, op, false, loc, [l, r]⟩ d) s =
      code (expression l .value) s ++ (code (expression r .value) (after (expression l .value) s) ++
        Instr.binary (.ofText op) :: dropped d) := by
  simp

theorem code_comma (l r : Tree) :
    code (expression { kind := .comma, text := ",", loc, children := [l, r] } d) s =
      code (expression l .effect) s ++ code (expression r d.plain)
        (after (expression l .effect) s) := by
  simp

/-- What is wanted of a value that is stored in a slot. -/
def State.demandOf (s : State) (slot : String) : Demand := .ofDouble (s.doubles.contains slot)

@[simp] theorem State.doubles_blank : s.blank.doubles = s.doubles := rfl

@[simp] theorem State.leavesValue_blank (f : String) : s.blank.leavesValue f = s.leavesValue f :=
  rfl

theorem code_assign (x : String) (loc' : Loc) (value : Tree) :
    code (expression ⟨.assign, "=", false, loc, [.nameAt x loc', value]⟩ d) s =
      code (expression value (s.demandOf (s.slotOf x))) s ++
        Instr.store (s.slotOf x) :: if d = .effect then [] else [.load (s.slotOf x)] := by
  by_cases hd : d = .effect <;> simp [Tree.nameAt, State.demandOf, hd]

section AssignItem

variable (x : String) (loc' loc'' : Loc) (i value : Tree)

theorem code_assignItem_effect : code (expression { kind := .assign, text := "=", loc, children :=
      [⟨.index, "Index", false, loc', [.nameAt x loc'', i]⟩, value] } .effect) s =
      let valued := after (expression value (s.demandOf (s.slotOf x))) s
      code (expression value (s.demandOf (s.slotOf x))) s ++
        (code (expression i .value) valued ++ [Instr.storeIndex (s.slotOf x)]) := by
  simp [Tree.nameAt, State.demandOf]

/-- If the value is wanted, a hidden slot holds it while the index is evaluated. -/
theorem code_assignItem (hd : d ≠ .effect) :
    code (expression { kind := .assign, text := "=", loc, children :=
      [⟨.index, "Index", false, loc', [.nameAt x loc'', i]⟩, value] } d) s =
      let valued := after (expression value (s.demandOf (s.slotOf x))) s
      let held := (hiddenSlot valued).1
      code (expression value (s.demandOf (s.slotOf x))) s ++ Instr.store held :: .load held ::
        (code (expression i .value) (after hiddenSlot valued) ++
            [Instr.storeIndex (s.slotOf x), .load held]) := by
  simp [Tree.nameAt, State.demandOf, hd]

end AssignItem

theorem code_call (f : String) (loc' : Loc) (args : List Tree) :
    code (expression ⟨.call, "Call", false, loc, .nameAt f loc' :: args⟩ d) s =
      code (values args) s ++
        Instr.call f :: if d = .effect ∧ s.leavesValue f then [.pop] else [] := by
  obtain ⟨k, -, hk⟩ := Plain.after_eq (x := values args) s
  have hleaves : (after (values args) s).leavesValue f = s.leavesValue f := by
    rw [hk]
    rfl
  by_cases hd : d = .effect
  · by_cases hv : s.leavesValue f <;> simp [Tree.nameAt, hd, hleaves, hv]
  · simp [Tree.nameAt, hd]

theorem code_index (base i : Tree) :
    code (expression ⟨.index, "Index", false, loc, [base, i]⟩ d) s =
      code (expression base .value) s ++
        (code (expression i .value) (after (expression base .value) s) ++
        Instr.loadIndex :: dropped d) := by
  simp

theorem code_omitted : code (expression (.omitted loc) .effect) s = [] := by
  simp [Tree.omitted]

/-! ## Declared names -/

theorem code_initialValue_plain (ty : Ty) (x : String) :
    code (initialValue ty ⟨.declarator, x, false, loc, []⟩) s = [zeroInstr ty] := by
  simp

theorem initialValue_initial (ty : Ty) (x : String) (e : Tree) :
    initialValue ty ⟨.declarator, x, false, loc, [e]⟩ =
      expression e (.ofDouble (ty = .double)) := rfl

theorem code_initialValue_array (ty : Ty) (x : String) (e : Tree) :
    code (initialValue ty ⟨.declarator, x, true, loc, [e]⟩) s =
      code (expression e .value) s ++ [Instr.newArray] := by
  simp

/-! ## Statements -/

theorem statement_omitted : statement (.omitted loc) = pure () := by
  simp [Tree.omitted]

theorem statement_block (ts : List Tree) :
    statement ⟨.block, "Block", false, loc, ts⟩ = inScope (statements ts) := by
  simp

theorem statements_nil : statements [] = pure () := by simp

theorem statements_cons (t : Tree) (ts : List Tree) :
    statements (t :: ts) = statement t >>= fun _ => statements ts := by
  simp

theorem statement_declaration (ty : Tree) (ds : List Tree) :
    statement ⟨.declaration, "VarDeclList", false, loc, ty :: ds⟩ =
      ds.forM (declarator (.ofTree ty)) := by
  simp
  rfl

theorem statement_exprStmt (e : Tree) :
    statement ⟨.exprStmt, "ExprStmt", false, loc, [e]⟩ = expression e .effect := by
  simp

theorem code_returnStmt (e : Tree) :
    code (statement ⟨.returnStmt, "Return", false, loc, [e]⟩) s =
      code (expression e (.ofDouble (s.returnType = .double))) s ++ [Instr.ret] := by
  simp only [statement]
  rw [code_get_bind fun _ => rfl]
  simp

theorem after_returnStmt (e : Tree) :
    after (statement ⟨.returnStmt, "Return", false, loc, [e]⟩) s =
      after (expression e (.ofDouble (s.returnType = .double))) s := by
  simp only [statement]
  rw [after_get_bind]
  simp

theorem statement_breakStmt :
    statement ⟨.breakStmt, "Break", false, loc, []⟩ = loopJump loc LoopLabels.breakTo := by
  simp

theorem statement_continueStmt :
    statement ⟨.continueStmt, "Continue", false, loc, []⟩ = loopJump loc LoopLabels.continueTo := by
  simp

theorem statement_conditional (c body : Tree) (rest : List Tree) :
    statement ⟨.conditional, "If", false, loc, c :: body :: rest⟩ =
      conditional loc fun done => branch c (statement body) done >>= fun _ =>
        branches done rest := by
  simp

theorem branches_nil (done : String) : branches done [] = pure () := by simp

theorem branches_elseIf (done : String) (c body : Tree) (ts : List Tree) :
    branches done (⟨.elseIf, "ElseIf", false, loc, [c, body]⟩ :: ts) =
      branch c (statement body) done >>= fun _ => branches done ts := by
  simp

theorem branches_last (done : String) (ts : List Tree) :
    branches done [⟨.block, "Block", false, loc, ts⟩] =
      statement ⟨.block, "Block", false, loc, ts⟩ := by
  simp

theorem branches_block {N : String → Prop} {ret : Option Ty} {loop : Bool} {Γ : Scopes}
    {body : Tree} (h : TypedBlock N ret loop Γ body) (done : String) :
    branches done [body] = statement body := by
  obtain ⟨⟩ := h
  exact branches_last ..

theorem statement_whileLoop (c body : Tree) :
    statement ⟨.whileLoop, "While", false, loc, [c, body]⟩ =
      whileLoop loc (unlessTrue c) (statement body) := by
  simp

theorem statement_doWhile (body c : Tree) :
    statement ⟨.doWhile, "DoWhile", false, loc, [body, c]⟩ =
      doWhile loc (statement body) (unlessTrue c) := by
  simp

theorem statement_forLoop (first c step body : Tree) :
    statement ⟨.forLoop, "For", false, loc, [first, c, step, body]⟩ =
      inScope (statement first >>= fun _ =>
        forLoop loc (unlessOmitted c) (statement body) (expression step .effect)) := by
  simp

end Stacklet.Emit
