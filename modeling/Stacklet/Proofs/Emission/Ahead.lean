import Stacklet.Proofs.Emission.Forms
/-!
# Code ahead of a place

* `Role`, `Emit.lower`: what a node is lowered as, and the code for it.
* `Emit.ahead`, `Emit.reach`: what is emitted ahead of a child of a node, and ahead of a place.
  Their results are the roles of the child and of the part at the place.
* `Emit.Ahead`: what stands ahead of a child. `ahead_block`, `ahead_whileLoop_body`, …: so it is for
  each construct.
-/

namespace Stacklet

/-- What a node is lowered as. -/
inductive Role where
  | program | item | parameter | statement
  /-- An alternative of a conditional that ends at the label. -/
  | branch (done : String)
  /-- A name that is declared with the type. -/
  | declarator (ty : Ty)
  | value (d : Demand)
  /-- What is assigned to, given what is wanted of the assignment. -/
  | target (d : Demand)
  /-- The name of an array of which an item is assigned to. -/
  | base
  deriving DecidableEq

namespace Emit

/-- Code for a node in its role. -/
def lower : Role → Tree → Emit Unit
  | .program, t => t.children.forM item
  | .item, t => item t
  | .parameter, t => discard (parameter t)
  | .statement, t => statement t
  | .branch done, t => branches done [t]
  | .declarator ty, t => declarator ty t
  | .value d, t => expression t d
  | .target d, t =>
    match t.kind, t.children with
    | .index, array :: i :: _ => do
      expression i .value
      let slot ← resolve array.text
      emit t.loc (.storeIndex slot)
    | _, _ => do
      let slot ← resolve t.text
      emit t.loc (.store slot)
      if d ≠ .effect then emit t.loc (.load slot)
  | .base, t => do
    let slot ← resolve t.text
    emit t.loc (.storeIndex slot)

@[simp] theorem lower_statement (t : Tree) : lower .statement t = statement t := rfl

@[simp] theorem lower_value (d : Demand) (t : Tree) : lower (.value d) t = expression t d := rfl

def enter : Emit Unit := modify State.enter

def within (labels : LoopLabels) : Emit Unit := modify fun s => s.within labels

def aheadInConditional (c body : Tree) (rest : List Tree) : Nat → Emit Role
  | 0 => do
    discard freshLabel
    discard freshLabel
    return .value .value
  | 1 => do
    discard freshLabel
    let next ← freshLabel
    unlessTrue c next
    return .statement
  | i + 2 => do
    let done ← freshLabel
    branch c (statement body) done
    branches done (rest.take i)
    return .branch done

def aheadInBranch (c : Tree) : Nat → Emit Role
  | 0 => do
    discard freshLabel
    return .value .value
  | _ + 1 => do
    let next ← freshLabel
    unlessTrue c next
    return .statement

def aheadInWhile (loc : Loc) (c : Tree) : Nat → Emit Role
  | 0 => do
    let start ← freshLabel
    discard freshLabel
    emit loc (.label start)
    return .value .value
  | _ + 1 => do
    let start ← freshLabel
    let done ← freshLabel
    emit loc (.label start)
    unlessTrue c done
    within ⟨done, start⟩
    return .statement

def aheadInDoWhile (loc : Loc) (body : Tree) : Nat → Emit Role
  | 0 => do
    let start ← freshLabel
    let next ← freshLabel
    let done ← freshLabel
    emit loc (.label start)
    within ⟨done, next⟩
    return .statement
  | _ + 1 => do
    let start ← freshLabel
    let next ← freshLabel
    let done ← freshLabel
    emit loc (.label start)
    inLoop ⟨done, next⟩ (statement body)
    emit loc (.label next)
    return .value .value

def aheadInFor (loc : Loc) (first c body : Tree) : Nat → Emit Role
  | 0 => do
    enter
    return .statement
  | 1 => do
    enter
    statement first
    let start ← freshLabel
    discard freshLabel
    discard freshLabel
    emit loc (.label start)
    return .value .value
  | 2 => do
    enter
    statement first
    let start ← freshLabel
    let next ← freshLabel
    let done ← freshLabel
    emit loc (.label start)
    unlessOmitted c done
    inLoop ⟨done, next⟩ (statement body)
    emit loc (.label next)
    return .value .effect
  | _ + 3 => do
    enter
    statement first
    let start ← freshLabel
    let next ← freshLabel
    let done ← freshLabel
    emit loc (.label start)
    unlessOmitted c done
    within ⟨done, next⟩
    return .statement

/-- The name that an assignment to `target` assigns to. -/
def assignedName (target : Tree) : String :=
  match target.kind, target.children with
  | .index, array :: _ => array.text
  | _, _ => target.text

/-- Code ahead of the place where an assignment stores, or ahead of its value. -/
def aheadInAssign (loc : Loc) (target value : Tree) (d : Demand) : Nat → Emit Role
  | 0 => do
    let slot ← resolve (assignedName target)
    expression value (.ofDouble (← isDouble slot))
    if target.kind = .index ∧ d ≠ .effect then
      let held ← hiddenSlot
      emit loc (.store held)
      emit loc (.load held)
    return .target d
  | _ + 1 => do
    let slot ← resolve (assignedName target)
    return .value (.ofDouble (← isDouble slot))

/-- Code ahead of the child with number `i` of an expression whose value is wanted as `d`. -/
def aheadInExpression (d : Demand) : Tree → Nat → Emit Role
  | { kind, text, loc, children, .. }, i =>
    match kind, children with
    | .unary, _ => return .value (.ofDouble (d = .double ∧ text = "-"))
    | .comma, _ => do
      (children.take i).forM fun e => expression e .effect
      return .value (if i + 1 < children.length then .effect else d.plain)
    | .assign, target :: value :: _ => aheadInAssign loc target value d i
    | .call, _ => do
      values (children.take i).tail
      return .value .value
    | _, _ => do
      values (children.take i)
      return .value .value

/-- What is emitted of a node in its role ahead of its child with number `i`, and the role of that
child. -/
def ahead : Role → Tree → Nat → Emit Role
  | .program, t, i => do
    (t.children.take i).forM item
    return .item
  | .value d, t, i => aheadInExpression d t i
  | .declarator ty, t, _ => return .value (if t.isArray then .value else .ofDouble (ty = .double))
  | .target _, t, i =>
    match t.children, i with
    | [_, e], 0 => do
      expression e .value
      return .base
    | _, _ => return .value .value
  | _, { kind, text, isArray, loc, children }, i =>
    match kind, children with
    | .function, _ =>
      match children[i]? with
      | some c =>
        if c.kind = .block then do
          prologue { kind, text, isArray, loc, children }
          return .statement
        else do
          emit loc (.label text)
          entering (.ofFirst children)
          discard ((parametersOf (children.take i)).mapM parameter)
          return .parameter
      | none => return .parameter
    | .block, _ => do
      enter
      statements (children.take i)
      return .statement
    | .declaration, _ => do
      (children.take i).tail.forM (declarator (.ofFirst children))
      return .declarator (.ofFirst children)
    | .returnStmt, _ => return .value (.ofDouble ((← get).returnType = .double))
    | .conditional, c :: body :: rest => aheadInConditional c body rest i
    | .elseIf, c :: _ => aheadInBranch c i
    | .whileLoop, c :: _ => aheadInWhile loc c i
    | .doWhile, body :: _ => aheadInDoWhile loc body i
    | .forLoop, first :: c :: _ :: body :: _ => aheadInFor loc first c body i
    | _, _ => return .value .effect

/-- What is emitted of a node in its role ahead of a place, and the role of the part there. -/
def reach : List Nat → Role → Tree → Emit Role
  | [], r, _ => return r
  | i :: p, r, t => do
    let r ← ahead r t i
    match t.children[i]? with
    | some c => reach p r c
    | none => return r

/-! ## The single computations -/

instance : Local enter := .of_silent (fun s => ((), s.enter)) fun _ => ⟨rfl, rfl, rfl⟩

@[simp] theorem code_enter (s : State) : code enter s = [] := rfl

@[simp] theorem after_enter (s : State) : after enter s = s.enter.blank := rfl

instance (labels : LoopLabels) : Local (within labels) :=
  .of_silent (fun s => ((), s.within labels)) fun _ => ⟨rfl, rfl, rfl⟩

@[simp] theorem code_within (labels : LoopLabels) (s : State) : code (within labels) s = [] := rfl

@[simp] theorem after_within (labels : LoopLabels) (s : State) :
    after (within labels) s = (s.within labels).blank := rfl

instance {α : Type} (x : Emit α) [Local x] : Local (discard x) :=
  inferInstanceAs (Local ((fun _ => ()) <$> x))

@[simp] theorem code_discard {α : Type} (x : Emit α) (s : State) : code (discard x) s = code x s :=
  rfl

@[simp] theorem after_discard {α : Type} (x : Emit α) (s : State) :
    after (discard x) s = after x s := rfl

section Ahead

variable (loc : Loc) (c body first target value : Tree) (rest : List Tree) (d : Demand)

instance : ∀ i, Local (aheadInConditional c body rest i)
  | 0 | 1 | _ + 2 => by unfold aheadInConditional; infer_instance

instance : ∀ i, Local (aheadInBranch c i)
  | 0 | _ + 1 => by unfold aheadInBranch; infer_instance

instance : ∀ i, Local (aheadInWhile loc c i)
  | 0 | _ + 1 => by unfold aheadInWhile; infer_instance

instance : ∀ i, Local (aheadInDoWhile loc body i)
  | 0 | _ + 1 => by unfold aheadInDoWhile; infer_instance

set_option synthInstance.maxSize 400 in
instance : ∀ i, Local (aheadInFor loc first c body i)
  | 0 | 1 | 2 | _ + 3 => by unfold aheadInFor; infer_instance

instance : ∀ i, Plain (aheadInAssign loc target value d i)
  | 0 => by
    have (x : String) : Plain (emit loc (.store x)) := .emit loc rfl
    have (x : String) : Plain (emit loc (.load x)) := .emit loc rfl
    unfold aheadInAssign
    infer_instance
  | _ + 1 => by unfold aheadInAssign; infer_instance

instance (f : Tree → Emit Unit) (ts : List Tree) [∀ t, Plain (f t)] : Plain (ts.forM f) := by
  induction ts with
  | nil => exact inferInstanceAs (Plain (pure ()))
  | cons t ts ih => exact inferInstanceAs (Plain (f t >>= fun _ => ts.forM f))

instance (t : Tree) (i : Nat) : Plain (aheadInExpression d t i) := by
  unfold aheadInExpression
  split
  split <;> infer_instance

instance (t : Tree) (i : Nat) : Plain (ahead (.value d) t i) :=
  inferInstanceAs (Plain (aheadInExpression d t i))

instance (ty : Ty) (t : Tree) (i : Nat) : Plain (ahead (.declarator ty) t i) :=
  inferInstanceAs
    (Plain (pure (Role.value (if t.isArray then .value else .ofDouble (ty = .double)))))

instance (t : Tree) (i : Nat) : Plain (ahead (.target d) t i) := by
  unfold ahead
  dsimp only
  split <;> infer_instance

instance : ∀ (r : Role) (t : Tree) (i : Nat), Local (ahead r t i) := by
  intro r t i
  unfold ahead
  split
  · infer_instance
  · infer_instance
  · infer_instance
  · split <;> infer_instance
  · split
    · split
      · split <;> infer_instance
      · infer_instance
    · infer_instance
    · infer_instance
    · exact .get_bind fun _ => rfl
    all_goals infer_instance

instance (p : List Nat) (r : Role) (t : Tree) : Local (reach p r t) := by
  induction p generalizing r t with
  | nil => exact inferInstanceAs (Local (pure r))
  | cons i p ih =>
    have (r : Role) : Local (match t.children[i]? with
        | some c => reach p r c
        | none => pure r : Emit Role) := by split <;> infer_instance
    exact inferInstanceAs (Local (ahead r t i >>= _))

end Ahead

theorem reach_cons {i : Nat} {t c : Tree} (h : t.children[i]? = some c) (p : List Nat) (r : Role) :
    reach (i :: p) r t = ahead r t i >>= fun r => reach p r c := by
  rw [reach, h]

/-- Ahead of the parts of an alternative stands what would stand there in a statement. -/
theorem ahead_branch (done : String) (t : Tree) (i : Nat) :
    ahead (.branch done) t i = ahead .statement t i := by
  cases t
  rfl

/-! ## What stands ahead in each construct -/

attribute [local simp] ahead aheadInExpression aheadInAssign aheadInConditional aheadInBranch
  aheadInWhile aheadInDoWhile aheadInFor

/-- Ahead of the child with number `i` stands the code `before`; the child is lowered as `r'` in the
state `s'`. -/
structure Ahead (r : Role) (t : Tree) (i : Nat) (s : State) (r' : Role) (before : List Instr)
    (s' : State) : Prop where
  role_eq : (ahead r t i s).1 = r'
  code_eq : code (ahead r t i) s = before
  after_eq : after (ahead r t i) s = s'

theorem slotOf_after {α : Type} (y : Emit α) [Plain y] (s : State) (x : String) :
    (after y s).slotOf x = s.slotOf x := by
  obtain ⟨k, -, hk⟩ := Plain.after_eq (x := y) s
  rw [hk]
  rfl

theorem code_target_name (d : Demand) (x : String) (loc : Loc) (s : State) :
    code (lower (.target d) (.nameAt x loc)) s =
      .store (s.slotOf x) :: if d = .effect then [] else [.load (s.slotOf x)] := by
  by_cases hd : d = .effect <;> simp [lower, Tree.nameAt, hd]

theorem code_target_entry (d : Demand) (x : String) (loc loc' : Loc) (i : Tree) (s : State) :
    code (lower (.target d) ⟨.index, "Index", false, loc, [.nameAt x loc', i]⟩) s =
      code (expression i .value) s ++ [Instr.storeIndex (s.slotOf x)] := by
  simp [lower, Tree.nameAt, slotOf_after]

theorem code_base (x : String) (loc : Loc) (s : State) :
    code (lower .base (.nameAt x loc)) s = [.storeIndex (s.slotOf x)] := by
  simp [lower, Tree.nameAt]

section Expressions

variable (loc : Loc) (d : Demand) (s : State)

theorem ahead_unary (op : String) (e : Tree) :
    Ahead (.value d) ⟨.unary, op, false, loc, [e]⟩ 0 s
      (.value (.ofDouble (d = .double ∧ op = "-"))) [] s.blank := ⟨rfl, rfl, rfl⟩

theorem ahead_left_binary (op : String) (l r : Tree) :
    Ahead (.value d) ⟨.binary, op, false, loc, [l, r]⟩ 0 s (.value .value) [] s.blank :=
  ⟨rfl, by simp [values], by simp [values]⟩

theorem ahead_right_binary (op : String) (l r : Tree) :
    Ahead (.value d) ⟨.binary, op, false, loc, [l, r]⟩ 1 s (.value .value)
      (code (expression l .value) s) (after (expression l .value) s) :=
  ⟨rfl, by simp [values], by simp [values]⟩

theorem ahead_left_comma (l r : Tree) :
    Ahead (.value d) { kind := .comma, text := ",", loc, children := [l, r] } 0 s (.value .effect)
      [] s.blank :=
  ⟨rfl, by simp, by simp⟩

theorem ahead_right_comma (l r : Tree) :
    Ahead (.value d) { kind := .comma, text := ",", loc, children := [l, r] } 1 s (.value d.plain)
      (code (expression l .effect) s) (after (expression l .effect) s) :=
  ⟨rfl, by simp, by simp⟩

theorem ahead_assigned (target value : Tree) :
    Ahead (.value d) ⟨.assign, "=", false, loc, [target, value]⟩ 1 s
      (.value (s.demandOf (s.slotOf (assignedName target)))) [] s.blank := by
  constructor <;> simp [State.demandOf]

theorem ahead_target_name (x : String) (loc' : Loc) (value : Tree) :
    Ahead (.value d) ⟨.assign, "=", false, loc, [.nameAt x loc', value]⟩ 0 s (.target d)
      (code (expression value (s.demandOf (s.slotOf x))) s)
        (after (expression value (s.demandOf (s.slotOf x))) s) := by
  constructor <;> simp [State.demandOf, assignedName, Tree.nameAt]

theorem ahead_target_effect (x : String) (loc' loc'' : Loc) (i value : Tree) :
    Ahead (.value .effect) { kind := .assign, text := "=", loc, children :=
      [⟨.index, "Index", false, loc', [.nameAt x loc'', i]⟩, value] } 0 s (.target .effect)
      (code (expression value (s.demandOf (s.slotOf x))) s)
          (after (expression value (s.demandOf (s.slotOf x))) s) := by
  constructor <;> simp [State.demandOf, assignedName, Tree.nameAt]

theorem ahead_target_entry (hd : d ≠ .effect) (x : String) (loc' loc'' : Loc) (i value : Tree) :
    let valued := after (expression value (s.demandOf (s.slotOf x))) s
    let held := (hiddenSlot valued).1
    Ahead (.value d) { kind := .assign, text := "=", loc, children :=
      [⟨.index, "Index", false, loc', [.nameAt x loc'', i]⟩, value] } 0 s (.target d)
      (code (expression value (s.demandOf (s.slotOf x))) s ++ [Instr.store held, .load held])
          (after hiddenSlot valued) := by
  constructor <;>
    simp [State.demandOf, assignedName, Tree.nameAt, hd, -after_hiddenSlot]

theorem ahead_base (x : String) (loc' : Loc) (i : Tree) :
    Ahead (.target d) ⟨.index, "Index", false, loc, [.nameAt x loc', i]⟩ 0 s .base
      (code (expression i .value) s) (after (expression i .value) s) := by
  constructor <;> simp

theorem ahead_entry (x : String) (loc' : Loc) (i : Tree) :
    Ahead (.target d) ⟨.index, "Index", false, loc, [.nameAt x loc', i]⟩ 1 s (.value .value) []
      s.blank := ⟨rfl, rfl, rfl⟩

theorem ahead_argument (f : Tree) (args : List Tree) (i : Nat) :
    Ahead (.value d) ⟨.call, "Call", false, loc, f :: args⟩ (i + 1) s (.value .value)
      (code (values (args.take i)) s) (after (values (args.take i)) s) := by
  constructor <;> simp

theorem ahead_left_index (base i : Tree) :
    Ahead (.value d) ⟨.index, "Index", false, loc, [base, i]⟩ 0 s (.value .value) [] s.blank :=
  ⟨rfl, by simp [values], by simp [values]⟩

theorem ahead_right_index (base i : Tree) :
    Ahead (.value d) ⟨.index, "Index", false, loc, [base, i]⟩ 1 s (.value .value)
      (code (expression base .value) s) (after (expression base .value) s) :=
  ⟨rfl, by simp [values], by simp [values]⟩

end Expressions

section Statements

variable (loc : Loc) (s : State)

theorem ahead_block (ts : List Tree) (i : Nat) :
    Ahead .statement ⟨.block, "Block", false, loc, ts⟩ i s .statement
      (code (statements (ts.take i)) s.enter) (after (statements (ts.take i)) s.enter) := by
  constructor <;> simp

theorem ahead_declaration (ty : Tree) (ds : List Tree) (i : Nat) :
    Ahead .statement ⟨.declaration, "VarDeclList", false, loc, ty :: ds⟩ (i + 1) s
      (.declarator (.ofTree ty)) (code ((ds.take i).forM (declarator (.ofTree ty))) s)
      (after ((ds.take i).forM (declarator (.ofTree ty))) s) := by
  refine ⟨rfl, ?_, ?_⟩ <;> simp <;> rfl

theorem ahead_exprStmt (e : Tree) :
    Ahead .statement ⟨.exprStmt, "ExprStmt", false, loc, [e]⟩ 0 s (.value .effect) [] s.blank :=
  ⟨rfl, rfl, rfl⟩

theorem ahead_returnStmt (e : Tree) :
    Ahead .statement ⟨.returnStmt, "Return", false, loc, [e]⟩ 0 s
      (.value (.ofDouble (s.returnType = .double))) [] s.blank := ⟨rfl, rfl, rfl⟩

section Conditional

variable (c body : Tree) (rest : List Tree)

theorem ahead_conditional_test :
    Ahead .statement ⟨.conditional, "If", false, loc, c :: body :: rest⟩ 0 s (.value .value) []
      s.labelled.labelled := by
  constructor <;> simp

theorem ahead_conditional_body :
    Ahead .statement ⟨.conditional, "If", false, loc, c :: body :: rest⟩ 1 s .statement
      (code (expression c .value) s.labelled.labelled ++ [Instr.jumpIfZero s.labelled.label])
      (after (expression c .value) s.labelled.labelled) := by
  constructor <;> simp

theorem ahead_conditional_rest (i : Nat) :
    Ahead .statement ⟨.conditional, "If", false, loc, c :: body :: rest⟩ (i + 2) s
      (.branch s.label)
      (code (branch c (statement body) s.label) s.labelled ++
        code (branches s.label (rest.take i))
          (after (branch c (statement body) s.label) s.labelled))
      (after (branches s.label (rest.take i))
        (after (branch c (statement body) s.label) s.labelled)) := by
  constructor <;> simp

theorem ahead_elseIf_test (done : String) :
    Ahead (.branch done) ⟨.elseIf, "ElseIf", false, loc, [c, body]⟩ 0 s (.value .value) []
      s.labelled := by
  constructor <;> simp

theorem ahead_elseIf_body (done : String) :
    Ahead (.branch done) ⟨.elseIf, "ElseIf", false, loc, [c, body]⟩ 1 s .statement
      (code (expression c .value) s.labelled ++ [Instr.jumpIfZero s.label])
        (after (expression c .value) s.labelled) := by
  constructor <;> simp

end Conditional

section Loops

variable (first c step body : Tree)

theorem ahead_whileLoop_test :
    Ahead .statement ⟨.whileLoop, "While", false, loc, [c, body]⟩ 0 s (.value .value)
      [.label s.label] s.labelled.labelled := by
  constructor <;> simp
  rfl

theorem ahead_whileLoop_body :
    Ahead .statement ⟨.whileLoop, "While", false, loc, [c, body]⟩ 1 s .statement
      (.label s.label :: (code (expression c .value) s.labelled.labelled ++
        [Instr.jumpIfZero s.labelled.label]))
        ((after (expression c .value) s.labelled.labelled).within ⟨s.labelled.label, s.label⟩) := by
  constructor <;> simp
  rfl

theorem ahead_doWhile_body :
    Ahead .statement ⟨.doWhile, "DoWhile", false, loc, [body, c]⟩ 0 s .statement
      [.label s.label] (s.labelled.labelled.labelled.within
        ⟨s.labelled.labelled.label, s.labelled.label⟩) := by
  constructor <;> simp
  rfl

theorem ahead_doWhile_test :
    let entered := s.labelled.labelled.labelled.within ⟨s.labelled.labelled.label, s.labelled.label⟩
    Ahead .statement ⟨.doWhile, "DoWhile", false, loc, [body, c]⟩ 1 s (.value .value)
      (.label s.label :: (code (statement body) entered ++ [Instr.label s.labelled.label]))
      (after (statement body) entered).past := by
  constructor <;> simp

theorem ahead_forLoop_first :
    Ahead .statement ⟨.forLoop, "For", false, loc, [first, c, step, body]⟩ 0 s .statement []
      s.enter.blank := ⟨rfl, rfl, rfl⟩

theorem ahead_forLoop_test :
    let opened := after (statement first) s.enter
    Ahead .statement ⟨.forLoop, "For", false, loc, [first, c, step, body]⟩ 1 s (.value .value)
      (code (statement first) s.enter ++ [Instr.label opened.label])
          opened.labelled.labelled.labelled := by
  constructor <;> simp
  rfl

theorem ahead_forLoop_step :
    let opened := after (statement first) s.enter
    let done := opened.labelled.labelled.label
    let tested := after (unlessOmitted c done) opened.labelled.labelled.labelled
    let entered := tested.within ⟨done, opened.labelled.label⟩
    Ahead .statement ⟨.forLoop, "For", false, loc, [first, c, step, body]⟩ 2 s (.value .effect)
      (code (statement first) s.enter ++ Instr.label opened.label ::
        (code (unlessOmitted c done) opened.labelled.labelled.labelled ++
          (code (statement body) entered ++ [Instr.label opened.labelled.label])))
      (after (statement body) entered).past := by
  constructor <;> simp

theorem ahead_forLoop_body :
    let opened := after (statement first) s.enter
    let done := opened.labelled.labelled.label
    let tested := after (unlessOmitted c done) opened.labelled.labelled.labelled
    Ahead .statement ⟨.forLoop, "For", false, loc, [first, c, step, body]⟩ 3 s .statement
      (code (statement first) s.enter ++ Instr.label opened.label ::
        code (unlessOmitted c done) opened.labelled.labelled.labelled)
      (tested.within ⟨done, opened.labelled.label⟩) := by
  constructor <;> simp
  rfl

end Loops

end Statements

section Items

variable (t : Tree) (i : Nat) (s : State)

theorem ahead_item :
    Ahead .program t i s .item (code ((t.children.take i).forM item) s)
      (after ((t.children.take i).forM item) s) := by
  constructor <;> simp

theorem ahead_initial (ty : Ty) :
    Ahead (.declarator ty) t i s (.value (if t.isArray then .value else .ofDouble (ty = .double)))
      [] s.blank :=
  ⟨rfl, rfl, rfl⟩

variable {t i} {c : Tree}

theorem ahead_body {t : Tree} (hk : t.kind = .function) (hc : t.children[i]? = some c)
    (hblock : c.kind = .block) :
    ahead .item t i = prologue t >>= fun _ => return .statement := by
  obtain ⟨kind, text, isArray, loc, children⟩ := t
  cases hk
  simp only at hc
  simp only [ahead, hc, if_pos hblock]

theorem ahead_parameter {t : Tree} (hk : t.kind = .function) (hc : t.children[i]? = some c)
    (hblock : c.kind ≠ .block) :
    ahead .item t i = (do
      emit t.loc (.label t.text)
      entering (.ofFirst t.children)
      discard ((parametersOf (t.children.take i)).mapM parameter)
      return .parameter) := by
  obtain ⟨kind, text, isArray, loc, children⟩ := t
  cases hk
  simp only at hc
  simp only [ahead, hc, if_neg hblock]

end Items

end Emit

end Stacklet
