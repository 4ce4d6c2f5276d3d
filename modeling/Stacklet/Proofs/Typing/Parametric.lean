import Stacklet.Proofs.Parsing.Lockstep
import Stacklet.Typing.Check
/-!
# Relations between checks

* `Checker.Congruence`: relations between checks that are kept by every way in which checks are put
  together, and `Checker.Combining`: by every way that declares nothing.
* `Checker.Combining.expression_rel`, `Checker.Congruence.statement_rel`: such a relation holds
  between the checks of like trees. If it says nothing about the second check, this is a property of
  the checks of all trees.
-/

namespace Stacklet

variable {α : Type}

/-- Whether an error is reported wherever it is found. An undeclared name is reported once in each
function. -/
@[reducible] def TypeError.isLasting : TypeError → Bool
  | undeclaredVariable _ => false
  | _ => true

/-! ## Like trees -/

namespace Tree

variable {M : Loc → Loc → Prop} {t t' : Tree} {ts ts' : List Tree}

mutual

theorem Like.refl : ∀ t : Tree, Like Eq t t
  | ⟨kind, text, isArray, loc, ts⟩ => .mk kind text isArray loc loc ts ts rfl (AllLike.refl ts)

theorem AllLike.refl : ∀ ts : List Tree, AllLike Eq ts ts
  | [] => .nil
  | t :: ts => .cons (Like.refl t) (AllLike.refl ts)

end

theorem Like.text_eq (h : Like M t t') : t'.text = t.text := by
  cases h
  rfl

theorem Like.isArray_eq (h : Like M t t') : t'.isArray = t.isArray := by
  cases h
  rfl

theorem Like.children (h : Like M t t') : AllLike M t.children t'.children := by
  cases h
  assumption

theorem AllLike.length_eq (h : AllLike M ts ts') : ts'.length = ts.length := by
  induction h with
  | nil => rfl
  | cons _ _ ih => rw [List.length_cons, ih, List.length_cons]

theorem AllLike.tail (h : AllLike M ts ts') : AllLike M ts.tail ts'.tail := by
  cases h with
  | nil => exact .nil
  | cons _ hts => exact hts

theorem AllLike.filter {p : Tree → Bool} (hp : ∀ t t', Like M t t' → p t' = p t)
    (h : AllLike M ts ts') :
    AllLike M (ts.filter p) (ts'.filter p) := by
  induction h with
  | nil => exact .nil
  | cons ht _ ih =>
    rw [List.filter_cons, List.filter_cons, hp _ _ ht]
    split
    · exact .cons ht ih
    · exact ih

theorem AllLike.map_eq {f : Tree → α} (hf : ∀ t t', Like M t t' → f t' = f t)
    (h : AllLike M ts ts') :
    ts'.map f = ts.map f := by
  induction h with
  | nil => rfl
  | cons ht _ ih => rw [List.map_cons, List.map_cons, hf _ _ ht, ih]

theorem AllLike.ofFirst_eq (h : AllLike M ts ts') : Ty.ofFirst ts' = Ty.ofFirst ts := by
  cases h with
  | nil => rfl
  | @cons t t' _ _ ht _ => cases ht; rfl

theorem AllLike.parametersOf (h : AllLike M ts ts') :
    AllLike M (parametersOf ts) (parametersOf ts') :=
  h.filter fun _ _ ht => by rw [ht.kind_eq]

theorem Like.functions (h : Like M t t') :
    AllLike M (t.children.filter fun c => c.kind == .function)
      (t'.children.filter fun c => c.kind == .function) :=
  h.children.filter fun _ _ ht => by rw [ht.kind_eq]

/-- Optional trees that are like. -/
def OptionLike (M : Loc → Loc → Prop) : Option Tree → Option Tree → Prop
  | none, none => True
  | some t, some t' => Like M t t'
  | _, _ => False

theorem AllLike.bodyOf? {ts ts' : List Tree} :
    AllLike M ts ts' → OptionLike M (bodyOf? ts) (bodyOf? ts')
  | .nil => trivial
  | @AllLike.cons _ t t' _ _ ht .nil => by
    show OptionLike M (Option.filter _ (some t)) (Option.filter _ (some t'))
    rw [Option.filter_some, Option.filter_some, ht.kind_eq]
    split
    · exact ht
    · trivial
  | .cons _ (.cons hu hus) => by
    have hlast := AllLike.bodyOf? (.cons hu hus)
    rwa [Stacklet.bodyOf?, Stacklet.bodyOf?, List.getLast?_cons_cons, List.getLast?_cons_cons]

end Tree

namespace Checker

open Stacklet.Tree

/-! ## Single checks -/

/-- A relation between checks that is kept by the ways to put checks together that declare nothing.
Places are related by `M`. -/
structure Combining (M : Loc → Loc → Prop) (R : ∀ {α : Type}, Checker α → Checker α → Prop) :
    Prop where
  pure_rel {α : Type} (a : α) : R (pure a) (pure a)
  bind_rel {α β : Type} {x x' : Checker α} {f f' : α → Checker β} : R x x' → (∀ a, R (f a) (f' a)) →
    R (x >>= f) (x' >>= f')
  /-- A check may look at what is known about the function and the loops around. -/
  around_rel {α : Type} (f f' : Bool → Ty → Nat → Checker α) : (∀ inFunction returnType loopDepth,
      R (f inFunction returnType loopDepth) (f' inFunction returnType loopDepth)) →
    R (get >>= fun s => f s.inFunction s.returnType s.loopDepth)
      (get >>= fun s => f' s.inFunction s.returnType s.loopDepth)
  lookup_rel (x : String) : R (lookup x) (lookup x)
  report_rel {loc loc' : Loc} {e : TypeError} : M loc loc' → e.isLasting = true →
    R (report loc e) (report loc' e)
  nameTy_rel {loc loc' : Loc} (x : String) : M loc loc' → R (nameTy loc x) (nameTy loc' x)

/-- A relation between checks that is kept by the ways to put checks together. -/
structure Congruence (M : Loc → Loc → Prop) (R : ∀ {α : Type}, Checker α → Checker α → Prop) :
    Prop extends Combining M R where
  declare_rel (x : String) (e : Entry) : R (declare x e) (declare x e)
  inScope_rel {x x' : Checker Unit} : R x x' → R (inScope x) (inScope x')
  inLoop_rel {x x' : Checker Unit} : R x x' → R (inLoop x) (inLoop x')

/-- The check of a `return` where it is known whether a function is around and what it returns. -/
def returnIn (inFunction : Bool) (expected : Ty) (loc : Loc)
    (children : List Tree) : Checker Unit :=
  if !inFunction then report loc .returnOutsideFunction
  else match children with
    | value :: _ => do
      let ty ← expression value
      if expected = .void then report value.loc .unexpectedValue
      else requireAccepted value.loc expected ty (.returned expected ty)
    | [] => unless expected = .void do report loc .missingValue

/-- What is checked of a function in the scope of its parameters. -/
def insideFunction (t : Tree) : Checker Unit := inScope do
  (parametersOf t.children).forM fun p => declareVar p (parameterTy p)
  match bodyOf? t.children with
  | some body => statement body
  | none => return

theorem get_bind_apply {β : Type} (f : State → Checker β) (s : State) :
    ((get : Checker State) >>= f) s = f s s := rfl

theorem returnValue_apply (loc : Loc) (children : List Tree) (s : State) :
    returnValue loc children s = returnIn s.inFunction s.returnType loc children s := by
  unfold returnValue returnIn
  rw [get_bind_apply]
  cases s.inFunction <;> cases children <;> rfl

theorem unaryTy_isLasting {op : String} {ty : Ty} {e : TypeError} (h : unaryTy op ty = .error e) :
    e.isLasting = true := by
  unfold unaryTy at h
  split at h <;> cases h
  rfl

theorem binaryTy_isLasting {op : String} {l r : Ty} {e : TypeError}
    (h : binaryTy op l r = .error e) :
    e.isLasting = true := by
  unfold binaryTy at h
  dsimp only at h
  split at h
  · split at h <;> cases h
    rfl
  · split at h
    · cases h
    · split at h <;> cases h
      rfl

variable {e : TypeError} {M : Loc → Loc → Prop} {R : ∀ {α : Type}, Checker α → Checker α → Prop}
  {t t' : Tree}
  {ts ts' : List Tree} {loc loc' : Loc}

namespace Combining

variable (h : Combining M R)

include h

omit h in
theorem ite_rel {p : Prop} [Decidable p] {x x' y y' : Checker α} (hx : R x x') (hy : R y y') :
    R (if p then x else y) (if p then x' else y') := by
  split
  · exact hx
  · exact hy

theorem discard_rel {x x' : Checker α} (hx : R x x') : R (discard x) (discard x') :=
  h.bind_rel hx fun _ => h.pure_rel ()

theorem forM_rel {f f' : Tree → Checker Unit} (hf : ∀ t t', Tree.Like M t t' → R (f t) (f' t'))
    (hts : AllLike M ts ts') :
    R (ts.forM f) (ts'.forM f') := by
  induction hts with
  | nil => exact h.pure_rel ()
  | cons ht _ ih => exact h.bind_rel (hf _ _ ht) fun _ => ih

theorem reportThen_rel (a : α) (hloc : M loc loc') (he : e.isLasting = true) :
    R (report loc e >>= fun _ => pure a) (report loc' e >>= fun _ => pure a) :=
  h.bind_rel (h.report_rel hloc he) fun _ => h.pure_rel a

theorem unless_rel {p : Prop} [Decidable p] (hloc : M loc loc') (he : e.isLasting = true) :
    R (if p then pure () else report loc e) (if p then pure () else report loc' e) :=
  ite_rel (h.pure_rel ()) (h.report_rel hloc he)

theorem resultTy_rel {r : Except TypeError Ty} (hloc : M loc loc')
    (hr : ∀ e, r = .error e → e.isLasting = true) :
    R (resultTy loc r) (resultTy loc' r) := by
  cases r with
  | ok ty => exact h.pure_rel ty
  | error e => exact h.reportThen_rel _ hloc (hr e rfl)

omit h in
theorem isAssignable_eq (ht : Tree.Like M t t') : isAssignable t' = isAssignable t := by
  obtain ⟨kind, text, isArray, loc, loc', ts, ts', -, hts⟩ := ht
  cases hts with
  | nil => rfl
  | @cons u u' us us' hu hus =>
    cases kind <;> first | rfl | exact congrArg (· == Kind.identifier) hu.kind_eq

theorem assignmentTy_rel (hloc : M loc loc') (ht : Tree.Like M t t') (targetTy valueTy : Ty) :
    R (assignmentTy loc t targetTy valueTy) (assignmentTy loc' t' targetTy valueTy) := by
  have hnone :=
    h.bind_rel (h.unless_rel (p := targetTy = .unknown ∨ valueTy = .unknown ∨
      targetTy.accepts valueTy) hloc
    (e := .assignment targetTy valueTy) rfl) fun _ => h.pure_rel targetTy
  obtain ⟨kind, text, isArray, l, l', ts, ts', -, hts⟩ := ht
  unfold assignmentTy stringBase?
  cases kind with
  | index =>
    cases hts with
    | nil => exact hnone
    | @cons u u' us us' hu hus =>
      dsimp only
      rw [hu.text_eq, bind_assoc, bind_assoc]
      refine h.bind_rel (h.lookup_rel _) fun entry => ?_
      split
      · rw [pure_bind, pure_bind]
        dsimp only
        rw [hu.text_eq]
        exact h.reportThen_rel _ hu.loc_like rfl
      · exact hnone
  | _ => exact hnone

theorem requireIndexable_rel (ht : Tree.Like M t t') :
    R (requireIndexable t) (requireIndexable t') := by
  unfold requireIndexable
  rw [ht.kind_eq, ht.text_eq]
  refine ite_rel (h.bind_rel (h.lookup_rel _) fun entry => ?_) (h.pure_rel ())
  split
  · exact h.unless_rel ht.loc_like rfl
  · exact h.pure_rel ()

theorem callee?_rel (ht : Tree.Like M t t') : R (callee? t) (callee? t') := by
  unfold callee?
  rw [ht.kind_eq, ht.text_eq]
  refine ite_rel (h.bind_rel (h.lookup_rel _) fun entry => ?_) (h.reportThen_rel _ ht.loc_like rfl)
  split
  · exact h.pure_rel _
  · exact h.reportThen_rel _ ht.loc_like rfl
  · exact h.reportThen_rel _ ht.loc_like rfl

theorem checkArgument_rel (ht : Tree.Like M t t') (f : String) (position : Nat) (ty : Ty)
    (param : Option (Ty × Bool)) :
    R (checkArgument f position t ty param) (checkArgument f position t' ty param) := by
  match param with
  | none => exact h.pure_rel ()
  | some (expected, wantsArray) =>
    refine h.bind_rel (h.unless_rel ht.loc_like rfl) fun _ => ?_
    unfold requireShape
    rw [ht.kind_eq, ht.text_eq]
    refine ite_rel (h.bind_rel (h.lookup_rel _) fun entry => ?_) (h.pure_rel ())
    split
    · exact h.unless_rel ht.loc_like rfl
    · exact h.pure_rel ()

/-! ## Expressions -/

mutual

theorem expression_rel {t t' : Tree} : Tree.Like M t t' → R (expression t) (expression t')
  | .mk kind text isArray loc loc' ts ts' hloc hts => by
    unfold expression
    cases kind with
    | identifier => exact h.nameTy_rel text hloc
    | unary =>
      cases hts with
      | nil => exact h.pure_rel _
      | @cons u u' us us' hu _ =>
        refine h.bind_rel (expression_rel hu) fun ty => ?_
        exact ite_rel (h.pure_rel _) (h.resultTy_rel hloc fun _ => unaryTy_isLasting)
    | binary =>
      match hts with
      | .nil | .cons _ .nil => exact h.pure_rel _
      | .cons hl (.cons hr _) =>
        refine h.bind_rel (expression_rel hl) fun l => h.bind_rel (expression_rel hr) fun r => ?_
        exact ite_rel (h.pure_rel _) (h.resultTy_rel hloc fun _ => binaryTy_isLasting)
    | comma => exact lastTy_rel hts _
    | assign =>
      match hts with
      | .nil | .cons _ .nil => exact h.pure_rel _
      | .cons ht (.cons hv _) =>
        dsimp only
        rw [isAssignable_eq ht]
        refine ite_rel ?_ ?_
        · refine h.bind_rel (expression_rel ht) fun targetTy =>
            h.bind_rel (expression_rel hv) fun valueTy => ?_
          exact h.assignmentTy_rel hloc ht _ _
        · refine h.bind_rel (h.report_rel ht.loc_like rfl) fun _ =>
            h.bind_rel (expression_rel hv) fun _ => h.pure_rel _
    | index =>
      match hts with
      | .nil | .cons _ .nil => exact h.pure_rel _
      | .cons hb (.cons hi _) =>
        refine h.bind_rel (expression_rel hb) fun ty =>
          h.bind_rel (expression_rel hi) fun indexTy => ?_
        refine h.bind_rel (h.unless_rel hi.loc_like rfl) fun _ =>
          h.bind_rel (h.requireIndexable_rel hb) fun _ => h.pure_rel _
    | call =>
      match hts with
      | .nil => exact h.pure_rel _
      | .cons (t := f) hf hargs =>
        refine h.bind_rel (h.callee?_rel hf) fun callee => ?_
        match callee with
        | some (returns, params) =>
          dsimp only
          rw [hf.text_eq, hargs.length_eq]
          have hrest := h.bind_rel (arguments_rel hargs f.text 1 params) fun _ => h.pure_rel returns
          exact ite_rel hrest (h.bind_rel (h.report_rel hloc rfl) fun _ => hrest)
        | none => exact h.bind_rel (lastTy_rel hargs _) fun _ => h.pure_rel _
    | _ => exact h.pure_rel _

theorem lastTy_rel {ts ts' : List Tree} : AllLike M ts ts' → ∀ ty, R (lastTy ty ts) (lastTy ty ts')
  | .nil, ty => h.pure_rel ty
  | .cons ht hts, ty => by
    unfold lastTy
    exact h.bind_rel (expression_rel ht) fun ty => lastTy_rel hts ty

theorem arguments_rel {ts ts' : List Tree} :
    AllLike M ts ts' → ∀ (f : String) (position : Nat) (params : List (Ty × Bool)),
    R (arguments f position params ts) (arguments f position params ts')
  | .nil, f, position, params => h.pure_rel ()
  | .cons ht hts, f, position, params => by
    unfold arguments
    refine h.bind_rel (expression_rel ht) fun ty =>
      h.bind_rel (h.checkArgument_rel ht _ _ _ _) fun _ => ?_
    exact arguments_rel hts f (position + 1) params.tail

end

theorem condition_rel (ht : Tree.Like M t t') (c : Construct) :
    R (condition c t) (condition c t') :=
  h.bind_rel (h.expression_rel ht) fun _ => h.unless_rel ht.loc_like rfl

theorem returnValue_rel (hloc : M loc loc') (hts : AllLike M ts ts') :
    R (returnValue loc ts) (returnValue loc' ts') := by
  have happly (loc : Loc) (ts : List Tree) : returnValue loc ts = get >>= fun s =>
      returnIn s.inFunction s.returnType loc ts :=
    funext (returnValue_apply loc ts)
  rw [happly, happly]
  refine h.around_rel (fun inFunction expected _ => returnIn inFunction expected loc ts)
    (fun inFunction expected _ => returnIn inFunction expected loc' ts')
      fun inFunction expected _ => ?_
  refine ite_rel (h.report_rel hloc rfl) ?_
  cases hts with
  | nil => exact h.unless_rel hloc rfl
  | @cons value value' _ _ hv _ =>
    refine h.bind_rel (h.expression_rel hv) fun ty => ?_
    exact ite_rel (h.report_rel hv.loc_like rfl) (h.unless_rel hv.loc_like rfl)

theorem requireLoop_rel (hloc : M loc loc') (he : e.isLasting = true) :
    R (requireLoop loc e) (requireLoop loc' e) :=
  h.around_rel (fun _ _ loopDepth => if loopDepth = 0 then report loc e else pure ())
    (fun _ _ loopDepth => if loopDepth = 0 then report loc' e else pure ()) fun _ _ _ =>
    ite_rel (h.report_rel hloc he) (h.pure_rel ())

end Combining

/-! ## Statements -/

namespace Congruence

open Combining

variable (h : Congruence M R)

include h

theorem declareVar_rel (ht : Tree.Like M t t') (ty : Ty) :
    R (declareVar t ty) (declareVar t' ty) := by
  unfold declareVar
  rw [ht.text_eq, ht.isArray_eq]
  exact h.bind_rel (h.declare_rel _ _) fun _ => h.unless_rel ht.loc_like rfl

theorem declarator_rel (ht : Tree.Like M t t') (declared : Ty) :
    R (declarator declared t) (declarator declared t') := by
  have hdeclare := h.declareVar_rel ht declared
  obtain ⟨kind, text, isArray, loc, loc', ts, ts', hloc, hts⟩ := ht
  cases hts with
  | nil => exact hdeclare
  | @cons value value' _ _ hv _ =>
    refine h.bind_rel (h.expression_rel hv) fun ty => ?_
    exact ite_rel (h.bind_rel (h.unless_rel hv.loc_like rfl) fun _ => hdeclare)
      (h.bind_rel (h.unless_rel hv.loc_like rfl) fun _ => hdeclare)

mutual

theorem statement_rel {t t' : Tree} : Tree.Like M t t' → R (statement t) (statement t')
  | .mk kind text isArray loc loc' ts ts' hloc hts => by
    have hexpr := h.discard_rel (h.expression_rel (.mk kind text isArray loc loc' ts ts' hloc hts))
    unfold statement
    cases kind with
    | exprStmt =>
      cases hts with
      | nil => exact h.pure_rel ()
      | cons he _ => exact h.discard_rel (h.expression_rel he)
    | block => exact h.inScope_rel (statements_rel hts)
    | declaration =>
      dsimp only
      rw [hts.ofFirst_eq]
      exact h.forM_rel (fun _ _ ht => h.declarator_rel ht _) hts.tail
    | returnStmt => exact h.returnValue_rel hloc hts
    | breakStmt | continueStmt => exact h.requireLoop_rel hloc rfl
    | conditional =>
      cases hts with
      | nil => exact h.pure_rel ()
      | cons hc hbranches =>
        exact h.bind_rel (h.condition_rel hc _) fun _ => branchStatements_rel hbranches
    | whileLoop =>
      cases hts with
      | nil => exact h.pure_rel ()
      | cons hc hbodies =>
        exact h.bind_rel (h.condition_rel hc _) fun _ => h.inLoop_rel (statements_rel hbodies)
    | doWhile =>
      match hts with
      | .nil => exact h.pure_rel ()
      | .cons hbody .nil => exact h.inLoop_rel (statement_rel hbody)
      | .cons hbody (.cons hc _) =>
        exact h.bind_rel (h.inLoop_rel (statement_rel hbody)) fun _ => h.condition_rel hc _
    | forLoop => exact h.inScope_rel (forStatements_rel hts)
    | function | parameter | elseIf | declarator | typeName | program | empty => exact h.pure_rel ()
    | _ => exact hexpr

theorem statements_rel {ts ts' : List Tree} : AllLike M ts ts' → R (statements ts) (statements ts')
  | .nil => h.pure_rel ()
  | .cons ht hts => by
    unfold statements
    exact h.bind_rel (statement_rel ht) fun _ => statements_rel hts

theorem branchStatements_rel {ts ts' : List Tree} :
    AllLike M ts ts' → R (branchStatements ts) (branchStatements ts')
  | .nil => h.pure_rel ()
  | .cons (.mk kind text isArray loc loc' us us' hloc hus) hts => by
    have hother : R (statement ⟨kind, text, isArray, loc, us⟩)
        (statement ⟨kind, text, isArray, loc', us'⟩) :=
      statement_rel (.mk kind text isArray loc loc' us us' hloc hus)
    have hrest := branchStatements_rel hts
    by_cases hk : kind = .elseIf
    · subst hk
      cases hus with
      | nil => exact h.bind_rel hother fun _ => hrest
      | cons hc hbodies =>
        unfold branchStatements
        exact h.bind_rel (h.condition_rel hc _) fun _ =>
          h.bind_rel (statements_rel hbodies) fun _ => hrest
    · cases kind <;> first | exact h.bind_rel hother fun _ => hrest | exact absurd rfl hk

theorem forStatements_rel {ts ts' : List Tree} :
    AllLike M ts ts' → R (forStatements ts) (forStatements ts')
  | .nil => h.pure_rel ()
  | .cons hfirst .nil => by
    unfold forStatements
    exact h.bind_rel (statement_rel hfirst) fun _ => h.pure_rel ()
  | .cons hfirst (.cons hc .nil) => by
    unfold forStatements
    exact h.bind_rel (statement_rel hfirst) fun _ => h.condition_rel hc _
  | .cons hfirst (.cons hc (.cons hstep .nil)) => by
    unfold forStatements
    refine h.bind_rel (statement_rel hfirst) fun _ => h.bind_rel (h.condition_rel hc _) fun _ => ?_
    exact h.discard_rel (h.expression_rel hstep)
  | .cons hfirst (.cons hc (.cons hstep (.cons hbody _))) => by
    unfold forStatements
    refine h.bind_rel (statement_rel hfirst) fun _ => h.bind_rel (h.condition_rel hc _) fun _ => ?_
    exact h.bind_rel (h.discard_rel (h.expression_rel hstep)) fun _ =>
      h.inLoop_rel (statement_rel hbody)

end

/-! ## Functions -/

theorem insideFunction_rel (ht : Tree.Like M t t') : R (insideFunction t) (insideFunction t') := by
  have hparams := ht.children.parametersOf
  have hbody := ht.children.bodyOf?
  refine h.inScope_rel (h.bind_rel (h.forM_rel (fun p p' hp => ?_) hparams) fun _ => ?_)
  · rw [parameterTy, parameterTy, hp.children.ofFirst_eq]
    exact h.declareVar_rel hp _
  · match bodyOf? t.children, bodyOf? t'.children, hbody with
    | none, none, _ => exact h.pure_rel ()
    | some body, some body', hbody => exact h.statement_rel hbody

theorem declareFunction_rel (ht : Tree.Like M t t') :
    R (declareFunction t) (declareFunction t') := by
  have hentry : Entry.ofChildren t'.children = Entry.ofChildren t.children := by
    rw [Entry.ofChildren, Entry.ofChildren, ht.children.ofFirst_eq, ht.children.parametersOf.map_eq
      fun p p' hp => ?_]
    rw [parameterTy, parameterTy, hp.children.ofFirst_eq, hp.isArray_eq]
  unfold declareFunction
  rw [ht.text_eq, hentry]
  exact h.bind_rel (h.declare_rel _ _) fun _ => h.unless_rel ht.loc_like rfl

end Congruence

end Checker

end Stacklet
