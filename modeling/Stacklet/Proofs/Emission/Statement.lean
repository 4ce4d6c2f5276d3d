import Stacklet.Proofs.Emission
import Stacklet.Proofs.Typing.Parametric
/-!
# The code of statements and functions

* `statement_steady`: statements keep the loops and scopes around them.
* `code_branch`, `code_conditional`, `code_whileLoop`, `code_doWhile`, `code_forLoop`: the code of
  each construct, with its labels at their places.
* `code_function`: the code of a function, which ends in a return.
* `toList_lower`: the code of a program is the code of its items in a row.
-/

namespace Stacklet

open List

namespace Emit

variable {α β : Type}

/-! ## Constructs -/

section Constructs

variable (c : Tree) (target : String)

instance : Steady (unlessTrue c target) := by unfold unlessTrue; infer_instance

@[simp] theorem code_unlessTrue (s : State) :
    code (unlessTrue c target) s = code (expression c .value) s ++ [Instr.jumpIfZero target] := by
  simp [unlessTrue]

@[simp] theorem after_unlessTrue (s : State) :
    after (unlessTrue c target) s = after (expression c .value) s := by
  simp [unlessTrue]

instance : Steady (unlessOmitted c target) := by unfold unlessOmitted; infer_instance

variable (loc : Loc) (test : String → Emit Unit) (body step : Emit Unit)

variable [∀ l, Steady (test l)] [Steady body] [Steady step] (s : State)

instance : Steady (branch c body target) := by unfold branch; infer_instance

theorem code_branch :
    code (branch c body target) s =
      code (expression c .value) s.labelled ++ Instr.jumpIfZero s.label ::
        (code body (after (expression c .value) s.labelled) ++
          [Instr.jump target, .label s.label]) := by
  simp [branch]

theorem after_branch :
    after (branch c body target) s = after body (after (expression c .value) s.labelled) := by
  simp [branch]

instance : Steady (conditional loc test) := by unfold conditional; infer_instance

theorem code_conditional :
    code (conditional loc test) s = code (test s.label) s.labelled ++ [Instr.label s.label] := by
  simp [conditional]

theorem after_conditional : after (conditional loc test) s = after (test s.label) s.labelled := by
  simp [conditional]

instance : Steady (whileLoop loc test body) := by unfold whileLoop; infer_instance

theorem code_whileLoop :
    code (whileLoop loc test body) s =
      let start := s.label
      let done := s.labelled.label
      let tested := after (test done) s.labelled.labelled
      .label start :: (code (test done) s.labelled.labelled ++
        (code body (tested.within ⟨done, start⟩) ++ [Instr.jump start, .label done])) := by
  simp [whileLoop]

theorem after_whileLoop :
    after (whileLoop loc test body) s =
      let start := s.label
      let done := s.labelled.label
      (after body ((after (test done) s.labelled.labelled).within ⟨done, start⟩)).past := by
  simp [whileLoop]

instance : Steady (doWhile loc body test) := by unfold doWhile; infer_instance

theorem code_doWhile :
    code (doWhile loc body test) s =
      let start := s.label
      let next := s.labelled.label
      let done := s.labelled.labelled.label
      let entered := s.labelled.labelled.labelled.within ⟨done, next⟩
      .label start :: (code body entered ++ Instr.label next ::
        (code (test done) (after body entered).past ++ [Instr.jump start, .label done])) := by
  simp [doWhile]

theorem after_doWhile :
    after (doWhile loc body test) s =
      let next := s.labelled.label
      let done := s.labelled.labelled.label
      after (test done) (after body (s.labelled.labelled.labelled.within ⟨done, next⟩)).past := by
  simp [doWhile]

set_option synthInstance.maxSize 400 in
instance : Steady (forLoop loc test body step) := by unfold forLoop; infer_instance

theorem code_forLoop :
    code (forLoop loc test body step) s =
      let start := s.label
      let next := s.labelled.label
      let done := s.labelled.labelled.label
      let tested := after (test done) s.labelled.labelled.labelled
      let entered := tested.within ⟨done, next⟩
      .label start :: (code (test done) s.labelled.labelled.labelled ++
        (code body entered ++ Instr.label next ::
        (code step (after body entered).past ++ [Instr.jump start, .label done]))) := by
  simp [forLoop]

theorem after_forLoop :
    after (forLoop loc test body step) s =
      let next := s.labelled.label
      let done := s.labelled.labelled.label
      let tested := after (test done) s.labelled.labelled.labelled
      after step (after body (tested.within ⟨done, next⟩)).past := by
  simp [forLoop]

end Constructs

theorem Local.get_bind {f : State → Emit α} (hf : ∀ s, f s.blank = f s) [∀ s, Local (f s)] :
    Local (get >>= f) where
  result_blank s := by rw [get_bind_apply, get_bind_apply, hf, result_blank]
  after_blank s := by
    show after (f s.blank) s.blank = after (f s) s
    rw [hf, after_blank]
  code_append s := by
    rw [get_bind_apply, code, get_bind_apply, hf]
    exact Local.code_append s

theorem code_get_bind {f : State → Emit α} (hf : ∀ s, f s.blank = f s) (s : State) :
    code (get >>= f) s = code (f s) s := by
  rw [code, get_bind_apply, hf]
  rfl

theorem after_get_bind (f : State → Emit α) (s : State) : after (get >>= f) s = after (f s) s := rfl

theorem Steady.get_bind {f : State → Emit α} (hf : ∀ s, f s.blank = f s) [∀ s, Steady (f s)] :
    Steady (get >>= f) := by
  have := Local.get_bind hf
  exact ⟨fun s => Steady.extend (x := f s) s⟩

section LoopJump

variable (loc : Loc) (target : LoopLabels → String)

@[simp] theorem code_loopJump (s : State) :
    code (loopJump loc target) s = (s.loops.take 1).map fun labels => .jump (target labels) := by
  rw [loopJump, code_get_bind fun _ => rfl]
  cases s.loops <;> rfl

@[simp] theorem after_loopJump (s : State) : after (loopJump loc target) s = s.blank := by
  rw [loopJump, after_get_bind]
  cases s.loops <;> rfl

instance : Steady (loopJump loc target) := by
  have : Local (loopJump loc target) := by
    have (s : State) : Local (match s.loops with
        | labels :: _ => emit loc (.jump (target labels))
        | [] => pure ()) := by cases s.loops <;> infer_instance
    exact .get_bind fun _ => rfl
  exact .of_after (after_loopJump loc target)

end LoopJump

/-! ## Declarations -/

/-- The instruction that pushes the zero of a type. -/
def zeroInstr : Ty → Instr
  | .double => .pushDouble 0
  | .string => .pushString ""
  | _ => .pushInt 0

section Declarations

variable (loc : Loc) (ty : Ty) (t : Tree) (s : State)

instance : Plain (zeroValue loc ty) := by
  have he : ∀ {i : Instr}, i.isStraight → Plain (emit loc i) := Plain.emit loc
  unfold zeroValue
  split
  · exact he rfl
  · have : Plain (emit loc (.pushString "")) := he rfl
    infer_instance
  · exact he rfl

@[simp] theorem code_zeroValue : code (zeroValue loc ty) s = [zeroInstr ty] := by
  cases ty <;> rfl

@[simp] theorem after_zeroValue : after (zeroValue loc ty) s = s.blank := by cases ty <;> rfl

instance : Plain (initialValue ty t) := by
  have : Plain (emit t.loc (.pushInt 0)) := .emit t.loc rfl
  have : Plain (emit t.loc .newArray) := .emit t.loc rfl
  unfold initialValue
  split
  · split <;> infer_instance
  · split <;> infer_instance

/-- The state with one more variable of a type. -/
def State.declaredAs (s : State) (name : String) (ty : Ty) : State :=
  let s' := s.declared name
  if ty = .double then { s' with doubles := s.newSlot name :: s'.doubles } else s'

@[simp] theorem State.blank_declared (name : String) :
    (s.declared name).blank = s.declared name := rfl

@[simp] theorem State.blank_declaredAs (name : String) :
    (s.declaredAs name ty).blank = s.declaredAs name ty := by
  unfold State.declaredAs
  split <;> rfl

@[simp] theorem State.declaredAs_blank (name : String) :
    s.blank.declaredAs name ty = s.declaredAs name ty := rfl

instance : Steady (introduce ty t) := by unfold introduce; infer_instance

@[simp] theorem code_introduce : code (introduce ty t) s = [.store (s.newSlot t.text)] := by
  unfold introduce
  by_cases h : ty = .double <;> simp [h]

@[simp] theorem after_introduce : after (introduce ty t) s = s.declaredAs t.text ty := by
  unfold introduce State.declaredAs
  by_cases h : ty = .double
  · simp [h]
    rfl
  · simp [h]

theorem extends_declaredAs (name : String) : s.Extends (s.declaredAs name ty) := by
  have h : s.Extends (after (introduce ty ⟨.declarator, name, false, .nowhere, []⟩) s) :=
    Steady.extend s
  rwa [after_introduce] at h

instance : Steady (declarator ty t) := by unfold declarator; infer_instance

@[simp] theorem code_declarator :
    code (declarator ty t) s =
      code (initialValue ty t) s ++
        [Instr.store ((after (initialValue ty t) s).newSlot t.text)] := by
  simp [declarator]

@[simp] theorem after_declarator :
    after (declarator ty t) s = (after (initialValue ty t) s).declaredAs t.text ty := by
  simp [declarator]

end Declarations

/-! ## Statements -/

/-- A relation between the computations for like trees that every construct of a statement keeps. It
may depend on the labels that are known to stand somewhere behind them. -/
structure Closed (M : Loc → Loc → Prop) (P : List String → Emit Unit → Emit Unit → Prop) :
    Prop where
  mono : ∀ {A x x'}, P [] x x' → P A x x'
  nothing : ∀ {A}, P A (pure ()) (pure ())
  expression : ∀ {A t t'}, Tree.Like M t t' → ∀ d, P A (expression t d) (expression t' d)
  seq : ∀ {A x x' y y'}, P A x x' → P A y y' → P A (x >>= fun _ => y) (x' >>= fun _ => y')
  look : ∀ {A} {f g : State → Emit Unit},
    (∀ s p, f { s with program := p } = f s ∧ g { s with program := p } = g s) →
    (∀ s, P A (f s) (g s)) → P A (get >>= f) (get >>= g)
  ret : ∀ {A loc loc'}, M loc loc' → P A (emit loc .ret) (emit loc' .ret)
  leap : ∀ {A loc loc'} target, M loc loc' → target = LoopLabels.breakTo ∨
    target = LoopLabels.continueTo →
    P A (loopJump loc target) (loopJump loc' target)
  declarator : ∀ {A t t'} ty, Tree.Like M t t' → P A (declarator ty t) (declarator ty t')
  scope : ∀ {A x x'}, P A x x' → P A (inScope x) (inScope x')
  skip : ∀ {A c c'}, Tree.Like M c c' → ∀ l ∈ A, P A (unlessTrue c l) (unlessTrue c' l)
  branch : ∀ {A c c' x x'}, Tree.Like M c c' → P [] x x' →
    ∀ done ∈ A, P A (branch c x done) (branch c' x' done)
  conditional : ∀ {A loc loc' x x'}, M loc loc' → (∀ done, P [done] (x done) (x' done)) →
    P A (conditional loc x) (conditional loc' x')
  whileLoop : ∀ {A loc loc' test test' body body'}, M loc loc' →
    (∀ done, P [done] (test done) (test' done)) →
    P [] body body' → P A (whileLoop loc test body) (whileLoop loc' test' body')
  doWhile : ∀ {A loc loc' test test' body body'}, M loc loc' →
    (∀ done, P [done] (test done) (test' done)) →
    P [] body body' → P A (doWhile loc body test) (doWhile loc' body' test')
  forLoop : ∀ {A loc loc' test test' body body' step step'}, M loc loc' →
    (∀ done, P [done] (test done) (test' done)) →
    P [] body body' → P [] step step' →
      P A (forLoop loc test body step) (forLoop loc' test' body' step')

namespace Closed

variable {M : Loc → Loc → Prop} {P : List String → Emit Unit → Emit Unit → Prop} (h : Closed M P)
  {c c' : Tree}

include h

theorem test (hc : Tree.Like M c c') (done : String) :
    P [done] (unlessTrue c done) (unlessTrue c' done) :=
  h.skip hc done (mem_singleton_self done)

theorem optional (hc : Tree.Like M c c') (done : String) :
    P [done] (unlessOmitted c done) (unlessOmitted c' done) := by
  unfold unlessOmitted
  rw [hc.kind_eq]
  split
  · exact h.nothing
  · exact h.test hc done

theorem choice {x x' : Emit Unit} (hc : Tree.Like M c c') (hx : P [] x x') (done : String) :
    P [done] (Emit.branch c x done) (Emit.branch c' x' done) :=
  h.branch hc hx done (mem_singleton_self done)

theorem declarators {A : List String} (ty : Ty) {ts ts' : List Tree} (hts : Tree.AllLike M ts ts') :
    P A (ts.forM (Emit.declarator ty)) (ts'.forM (Emit.declarator ty)) := by
  induction hts with
  | nil => exact h.nothing
  | cons ht _ ih => exact h.seq (h.declarator ty ht) ih

mutual

theorem statement {t t' : Tree} : Tree.Like M t t' → P [] (statement t) (statement t')
  | .mk kind text isArray loc loc' ts ts' hloc hts => by
    have hexpr := h.expression (.mk kind text isArray loc loc' ts ts' hloc hts) .effect (A := [])
    unfold Emit.statement
    cases kind with
    | block => exact h.scope (statements hts)
    | declaration =>
      dsimp only
      rw [hts.ofFirst_eq]
      exact h.declarators _ hts.tail
    | exprStmt =>
      match hts with
      | .nil => exact h.nothing
      | .cons he _ => exact h.expression he .effect
    | returnStmt =>
      match hts with
      | .nil => exact h.ret hloc
      | .cons he _ =>
        exact h.look (fun _ _ => ⟨rfl, rfl⟩) fun s => h.seq (h.expression he _) (h.ret hloc)
    | breakStmt => exact h.leap _ hloc (.inl rfl)
    | continueStmt => exact h.leap _ hloc (.inr rfl)
    | conditional =>
      match hts with
      | .nil => exact h.conditional hloc fun _ => h.nothing
      | .cons hc .nil => exact h.conditional hloc (h.choice hc h.nothing)
      | .cons hc (.cons hbody hrest) =>
        exact h.conditional hloc fun done =>
          h.seq (h.choice hc (statement hbody) done) (branches done hrest)
    | whileLoop =>
      match hts with
      | .nil => exact h.whileLoop hloc (fun _ => h.nothing) h.nothing
      | .cons hc .nil => exact h.whileLoop hloc (h.test hc) h.nothing
      | .cons hc (.cons hbody _) => exact h.whileLoop hloc (h.test hc) (statement hbody)
    | doWhile =>
      match hts with
      | .nil => exact h.doWhile hloc (fun _ => h.nothing) h.nothing
      | .cons hbody .nil => exact h.doWhile hloc (fun _ => h.nothing) (statement hbody)
      | .cons hbody (.cons hc _) => exact h.doWhile hloc (h.test hc) (statement hbody)
    | forLoop =>
      match hts with
      | .nil => exact h.scope (h.forLoop hloc (fun _ => h.nothing) h.nothing h.nothing)
      | .cons hfirst .nil =>
        exact h.scope (h.seq (statement hfirst)
          (h.forLoop hloc (fun _ => h.nothing) h.nothing h.nothing))
      | .cons hfirst (.cons hc .nil) =>
        exact h.scope (h.seq (statement hfirst)
          (h.forLoop hloc (h.optional hc) h.nothing h.nothing))
      | .cons hfirst (.cons hc (.cons hstep .nil)) =>
        exact h.scope (h.seq (statement hfirst)
          (h.forLoop hloc (h.optional hc) h.nothing (h.expression hstep .effect)))
      | .cons hfirst (.cons hc (.cons hstep (.cons hbody _))) =>
        exact h.scope (h.seq (statement hfirst)
          (h.forLoop hloc (h.optional hc) (statement hbody) (h.expression hstep .effect)))
    | function | parameter | elseIf | declarator | typeName | program | empty => exact h.nothing
    | _ => exact hexpr

theorem statements {ts ts' : List Tree} :
    Tree.AllLike M ts ts' → P [] (statements ts) (statements ts')
  | .nil => by
    unfold Emit.statements
    exact h.nothing
  | .cons ht hts => by
    unfold Emit.statements
    exact h.seq (statement ht) (statements hts)

theorem branches (done : String) {ts ts' : List Tree} : Tree.AllLike M ts ts' →
    P [done] (branches done ts) (branches done ts')
  | .nil => by
    unfold Emit.branches
    exact h.nothing
  | .cons (.mk kind text isArray loc loc' us us' hloc hus) hts => by
    have hother := h.mono (A := [done]) (statement (.mk kind text isArray loc loc' us us' hloc hus))
    cases kind with
    | elseIf =>
      unfold Emit.branches
      match hus with
      | .nil => exact branches done hts
      | .cons hc .nil => exact h.seq (h.choice hc h.nothing done) (branches done hts)
      | .cons hc (.cons hbody _) =>
        exact h.seq (h.choice hc (statement hbody) done) (branches done hts)
    | _ =>
      unfold Emit.branches
      exact h.seq hother (branches done hts)

end

end Closed

theorem closed_steady : Closed Eq fun _ x _ => Steady x where
  mono h := h
  nothing := inferInstance
  expression _ _ := inferInstance
  seq _ _ := inferInstance
  look hf _ := .get_bind fun s => (hf s _).1
  ret _ := inferInstance
  leap _ _ _ := inferInstance
  declarator _ _ := inferInstance
  scope _ := inferInstance
  skip _ _ _ := inferInstance
  branch _ _ _ _ := inferInstance
  conditional _ _ := inferInstance
  whileLoop _ _ _ := inferInstance
  doWhile _ _ _ := inferInstance
  forLoop _ _ _ _ := inferInstance

instance statement_steady (t : Tree) : Steady (statement t) := closed_steady.statement (.refl t)

instance (ts : List Tree) : Steady (statements ts) := closed_steady.statements (.refl ts)

instance (done : String) (ts : List Tree) : Steady (branches done ts) :=
  closed_steady.branches done (.refl ts)

/-! ## Functions -/

/-- The state in which a function of a type begins. -/
def State.forFunction (s : State) (ty : Ty) : State :=
  { s.blank with scopes := [[]], doubles := [], returnType := ty }

/-- Forgets all variables and takes note of the type that is returned. -/
def entering (ty : Ty) : Emit Unit := do
  forgetScopes
  modify fun s => { s with returnType := ty }

instance (ty : Ty) : Local (entering ty) :=
  .of_silent (fun s => ((), s.forFunction ty)) fun _ => ⟨rfl, rfl, rfl⟩

@[simp] theorem code_entering (ty : Ty) (s : State) : code (entering ty) s = [] := rfl

@[simp] theorem after_entering (ty : Ty) (s : State) : after (entering ty) s = s.forFunction ty :=
  rfl

@[simp] theorem State.blank_forFunction (s : State) (ty : Ty) :
    (s.forFunction ty).blank = s.forFunction ty := rfl

@[simp] theorem State.forFunction_blank (s : State) (ty : Ty) :
    s.blank.forFunction ty = s.forFunction ty := rfl

instance (p : Tree) : Steady (parameter p) := by unfold parameter; infer_instance

@[simp] theorem code_parameter (p : Tree) (s : State) : code (parameter p) s = [] := by
  unfold parameter
  by_cases h : parameterTy p = .double <;> simp [h]

@[simp] theorem result_parameter (p : Tree) (s : State) :
    (parameter p s).1 = (p.loc, s.newSlot p.text) := by
  unfold parameter
  by_cases h : parameterTy p = .double <;> simp [h]

@[simp] theorem after_parameter (p : Tree) (s : State) :
    after (parameter p) s = s.declaredAs p.text (parameterTy p) := by
  unfold parameter State.declaredAs
  by_cases h : parameterTy p = .double <;> simp [h]

instance (ps : List Tree) : Local (ps.mapM parameter) := by
  induction ps with
  | nil =>
    rw [mapM_nil]
    infer_instance
  | cons p ps ih =>
    rw [mapM_cons]
    infer_instance

/-- The slots of parameters that are declared from a state on. -/
def State.paramSlots : State → List Tree → List String
  | _, [] => []
  | s, p :: ps => s.newSlot p.text :: (s.declaredAs p.text (parameterTy p)).paramSlots ps

/-- The state with some parameters declared. -/
def State.withParams : State → List Tree → State
  | s, [] => s
  | s, p :: ps => (s.declaredAs p.text (parameterTy p)).withParams ps

theorem extends_withParams (s : State) (ps : List Tree) : s.Extends (s.withParams ps) := by
  induction ps generalizing s with
  | nil => exact ⟨rfl, rfl, rfl, rfl, rfl, Nat.le_refl _, Nat.le_refl _⟩
  | cons p ps ih => exact (extends_declaredAs (parameterTy p) s p.text).trans (ih _)

theorem mapM_parameter (ps : List Tree) (s : State) :
    code (ps.mapM parameter) s = [] ∧ after (ps.mapM parameter) s = s.blank.withParams ps ∧
      ((ps.mapM parameter) s).1.map Prod.snd = s.paramSlots ps := by
  induction ps generalizing s with
  | nil => exact ⟨rfl, rfl, rfl⟩
  | cons p ps ih =>
    obtain ⟨hc, ha, hr⟩ := ih (s.declaredAs p.text (parameterTy p))
    rw [mapM_cons]
    refine ⟨?_, ?_, ?_⟩
    · simp [hc]
    · simp [ha, State.withParams]
    · simp [hr, State.paramSlots]

/-- Code that stores arguments in slots. -/
def stores (ps : List (Loc × String)) : Emit Unit :=
  ps.forM fun (loc, slot) => emit loc (.store slot)

instance (ps : List (Loc × String)) : Steady (stores ps) := by unfold stores; infer_instance

theorem stores_cons (p : Loc × String) (ps : List (Loc × String)) :
    stores (p :: ps) = emit p.1 (.store p.2) >>= fun _ => stores ps := rfl

@[simp] theorem code_stores (ps : List (Loc × String)) (s : State) :
    code (stores ps) s = (ps.map Prod.snd).map .store := by
  induction ps generalizing s with
  | nil => rfl
  | cons p ps ih =>
    rw [stores_cons, code_bind, ih]
    rfl

@[simp] theorem after_stores (ps : List (Loc × String)) (s : State) :
    after (stores ps) s = s.blank := by
  induction ps generalizing s with
  | nil => rfl
  | cons p ps ih =>
    rw [stores_cons, after_bind, ih]
    rfl

section Functions

variable (t : Tree) (s : State)

theorem prologue_eq :
    prologue t = (do
      mention t.text
      emit t.loc (.label t.text)
      entering (.ofFirst t.children)
      let params ← (parametersOf t.children).mapM parameter
      stores params.reverse) := rfl

instance : Local (prologue t) := by rw [prologue_eq]; infer_instance

theorem code_prologue :
    code (prologue t) s = .label t.text ::
      (((s.forFunction (.ofFirst t.children)).paramSlots (parametersOf t.children)).map
        .store).reverse := by
  obtain ⟨hc, -, hr⟩ :=
    mapM_parameter (parametersOf t.children) (s.forFunction (.ofFirst t.children))
  rw [← hr, prologue_eq]
  simp [hc]

theorem after_prologue :
    after (prologue t) s = (s.forFunction (.ofFirst t.children)).withParams
      (parametersOf t.children) := by
  obtain ⟨-, ha, -⟩ :=
    mapM_parameter (parametersOf t.children) (s.forFunction (.ofFirst t.children))
  rw [State.blank_forFunction] at ha
  rw [prologue_eq]
  simp [← ha]

/-- A function up to the end of its body. -/
def opening (t : Tree) : Emit Unit := do
  prologue t
  match bodyOf? t.children with
  | some body => statement body
  | none => pure ()

instance : Local (opening t) := by
  unfold opening
  cases bodyOf? t.children <;> infer_instance

theorem code_opening :
    code (opening t) s = code (prologue t) s ++
      (bodyOf? t.children).elim [] fun body => code (statement body) (after (prologue t) s) := by
  unfold opening
  cases bodyOf? t.children <;> simp

theorem after_opening :
    after (opening t) s =
      (bodyOf? t.children).elim (after (prologue t) s) fun body =>
        after (statement body) (after (prologue t) s) := by
  unfold opening
  cases bodyOf? t.children <;> simp

def endsInRet (c : List Instr) : Bool := (c.getLast?.map Instr.isRet).getD false

theorem endsInRet_concat (c : List Instr) (i : Instr) : endsInRet (c ++ [i]) = i.isRet := by
  simp [endsInRet]

/-- The instructions at the end of a function with the code `c` before them. -/
def endCode (ty : Ty) (c : List Instr) : List Instr :=
  if endsInRet c then [] else if ty = .void then [.ret] else [zeroInstr ty, .ret]

/-- The end of a function with the code `c` before it. -/
def ending (loc : Loc) (c : List Instr) : Emit Unit := do
  let s ← get
  unless endsInRet c do
    unless s.returnType = .void do zeroValue loc s.returnType
    emit loc .ret

theorem epilogue_apply (loc : Loc) {c : List Instr} (hc : c ≠ []) {s : State} {before : List Instr}
    (h : s.program.code.toList = before ++ c) : epilogue loc s = ending loc c s := by
  have hlast : s.program.code.back? = c.getLast? := by
    rw [← Array.getLast?_toList, h, getLast?_append_of_ne_nil _ hc]
  unfold epilogue ending
  rw [get_bind_apply, get_bind_apply, hlast]
  rfl

instance (loc : Loc) (c : List Instr) : Local (ending loc c) := by
  unfold ending
  have (s : State) : Local (do
      unless endsInRet c do
        unless s.returnType = .void do zeroValue loc s.returnType
        emit loc .ret : Emit Unit) := by infer_instance
  exact .get_bind fun _ => rfl

theorem code_ending (loc : Loc) (c : List Instr) :
    code (ending loc c) s = endCode s.returnType c := by
  rw [ending, code_get_bind fun _ => rfl]
  unfold endCode
  by_cases hc : endsInRet c <;> by_cases ht : s.returnType = .void <;> simp [hc, ht]

theorem after_ending (loc : Loc) (c : List Instr) : after (ending loc c) s = s.blank := by
  rw [ending, after_get_bind]
  by_cases hc : endsInRet c <;> by_cases ht : s.returnType = .void <;> simp [hc, ht]

theorem code_opening_ne_nil : code (opening t) s ≠ [] := by
  rw [code_opening, code_prologue]
  exact cons_ne_nil _ _

theorem function_apply (s' : State) (h : s'.blank = s.blank) :
    function t s' = (do
      opening t
      ending t.loc (code (opening t) s)
      entering .void : Emit Unit) s' := by
  have hcode : code (opening t) s' = code (opening t) s := by rw [← code_blank, h, code_blank]
  have happ := Local.code_append (x := opening t) s'
  rw [hcode] at happ
  have hend := epilogue_apply t.loc (code_opening_ne_nil t s) happ
  have hf : function t = (do
      opening t
      epilogue t.loc
      entering .void) := by
    unfold function opening
    cases bodyOf? t.children <;> rfl
  rw [hf, bind_apply, bind_apply, hend]
  rfl

instance : Local (function t) where
  result_blank _ := rfl
  after_blank s := by
    rw [after, after, function_apply t s s rfl, function_apply t s s.blank rfl]
    exact after_blank _ s
  code_append s := by
    rw [code, function_apply t s s rfl, function_apply t s s.blank rfl]
    exact Local.code_append s

/-- **The code of a function** is that of its start and its body, and a return if that does not end
in one. -/
theorem code_function :
    code (function t) s =
      code (opening t) s ++ endCode (after (opening t) s).returnType (code (opening t) s) := by
  rw [code, function_apply t s s.blank rfl]
  change code _ s = _
  simp [code_ending]

theorem after_function : after (function t) s = (after (opening t) s).forFunction .void := by
  rw [after, function_apply t s s rfl]
  change after _ s = _
  simp [after_ending]

end Functions

instance (t : Tree) : Local (item t) := by
  unfold item
  split <;> infer_instance

instance (f : β → Emit Unit) (l : List β) [∀ b, Local (f b)] : Local (l.forM f) := by
  induction l with
  | nil => exact inferInstanceAs (Local (pure ()))
  | cons b l ih => exact inferInstanceAs (Local (f b >>= fun _ => l.forM f))

theorem item_of_function {t : Tree} (h : t.kind = .function) : item t = function t := if_pos h

theorem item_of_ne {t : Tree} (h : t.kind ≠ .function) : item t = statement t := if_neg h

@[simp] theorem code_forM_cons (f : β → Emit Unit) [∀ b, Local (f b)] (b : β) (l : List β)
    (s : State) :
    code ((b :: l).forM f) s = code (f b) s ++ code (l.forM f) (after (f b) s) :=
  code_bind (f b) (fun _ => l.forM f) s

@[simp] theorem after_forM_cons (f : β → Emit Unit) [∀ b, Local (f b)] (b : β) (l : List β)
    (s : State) :
    after ((b :: l).forM f) s = after (l.forM f) (after (f b) s) :=
  after_bind (f b) (fun _ => l.forM f) s

theorem forM_append (f : β → Emit Unit) (l l' : List β) :
    (l ++ l').forM f = l.forM f >>= fun _ => l'.forM f := List.forM_append

theorem code_forM_append (f : β → Emit Unit) [∀ b, Local (f b)] (l l' : List β) (s : State) :
    code ((l ++ l').forM f) s = code (l.forM f) s ++ code (l'.forM f) (after (l.forM f) s) := by
  rw [forM_append, code_bind]

theorem after_forM_append (f : β → Emit Unit) [∀ b, Local (f b)] (l l' : List β) (s : State) :
    after ((l ++ l').forM f) s = after (l'.forM f) (after (l.forM f) s) := by
  rw [forM_append, after_bind]

end Emit

namespace Tree

/-- The state in which lowering a program begins. -/
def start (t : Tree) : Emit.State :=
  { functions := t.functions.map Tree.text
    valued := (t.functions.filter fun f => Ty.ofFirst f.children != .void).map Tree.text }

/-- **The code of a program** is that of its items in a row. -/
theorem toList_lower (t : Tree) :
    t.lower.code.toList = Emit.code (t.children.forM Emit.item) t.start := rfl

variable (t : Tree)

/-- The state in which lowering an item begins. -/
def itemState (k : Nat) : Emit.State := Emit.after ((t.children.take k).forM Emit.item) t.start

/-- The index at which the code of an item begins. -/
def itemStart (k : Nat) : Nat :=
  (((t.children.take k).forM Emit.item).run t.start).2.program.code.size

/-- Whether an index is one of the code of an item. -/
def InItem (k i : Nat) : Prop := t.itemStart k ≤ i ∧ i < t.itemStart (k + 1)

/-- The code of an item. -/
def itemCode (k : Nat) : List Instr :=
  (t.children[k]?.map fun c => Emit.code (Emit.item c) (t.itemState k)).getD []

theorem itemStart_eq_length (k : Nat) :
    t.itemStart k = (Emit.code ((t.children.take k).forM Emit.item) t.start).length := rfl

theorem itemState_succ {k : Nat} {c : Tree} (h : t.children[k]? = some c) :
    t.itemState (k + 1) = Emit.after (Emit.item c) (t.itemState k) := by
  rw [itemState, take_add_one, h, Emit.after_forM_append]
  rfl

theorem itemCode_of_getElem? {k : Nat} {c : Tree} (h : t.children[k]? = some c) :
    t.itemCode k = Emit.code (Emit.item c) (t.itemState k) := by
  rw [itemCode, h]
  rfl

theorem itemCode_of_function {k : Nat} {c : Tree} (h : t.children[k]? = some c)
    (hc : c.kind = .function) :
    t.itemCode k = Emit.code (Emit.function c) (t.itemState k) := by
  rw [itemCode_of_getElem? t h, Emit.item_of_function hc]

theorem code_take_succ (k : Nat) :
    Emit.code ((t.children.take (k + 1)).forM Emit.item) t.start =
      Emit.code ((t.children.take k).forM Emit.item) t.start ++ t.itemCode k := by
  rw [take_add_one, Emit.code_forM_append, itemCode]
  cases t.children[k]? with
  | none => rfl
  | some c => rfl

theorem exists_toList_lower (k : Nat) :
    ∃ before behind, t.lower.code.toList = before ++ t.itemCode k ++ behind ∧
      before.length = t.itemStart k := by
  refine ⟨Emit.code ((t.children.take k).forM Emit.item) t.start,
    Emit.code ((t.children.drop (k + 1)).forM Emit.item) (t.itemState (k + 1)), ?_, rfl⟩
  rw [← code_take_succ, toList_lower, itemState, ← Emit.code_forM_append, take_append_drop]

theorem itemStart_succ (k : Nat) : t.itemStart (k + 1) = t.itemStart k + (t.itemCode k).length := by
  rw [itemStart_eq_length, itemStart_eq_length, code_take_succ, length_append]

theorem exists_inItem {i : Nat} (h : i < t.lower.code.size) :
    ∃ k, k < t.children.length ∧ t.InItem k i := by
  have hend : t.itemStart t.children.length = t.lower.code.size := by
    rw [itemStart, take_length]
    rfl
  have locate (n : Nat) (hn : i < t.itemStart n) : ∃ k, k < n ∧ t.InItem k i := by
    induction n with
    | zero => exact absurd hn (Nat.not_lt_zero i)
    | succ n ih =>
      by_cases hlt : i < t.itemStart n
      · obtain ⟨k, hk, hin⟩ := ih hlt
        exact ⟨k, Nat.lt_succ_of_lt hk, hin⟩
      · exact ⟨n, Nat.lt_succ_self n, Nat.le_of_not_lt hlt, hn⟩
  exact locate _ (hend ▸ h)

theorem getElem?_lower {k i : Nat} (h : i < (t.itemCode k).length) :
    t.lower.code[t.itemStart k + i]? = (t.itemCode k)[i]? := by
  obtain ⟨before, behind, hcode, hlen⟩ := t.exists_toList_lower k
  rw [← Array.getElem?_toList, hcode, ← hlen, append_assoc,
    getElem?_append_right (Nat.le_add_right _ _), Nat.add_sub_cancel_left, getElem?_append_left h]

end Tree

end Stacklet
