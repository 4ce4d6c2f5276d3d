import Stacklet.Proofs.Height.Code
/-!
# Heights between statements

* `Emit.Lowers`: the statements inside of a statement, with the code before them and the states in
  which they are lowered.
* `Sits`: the code of a statement inside of other code, with the stack empty before and behind it.
  `Emit.Lowers.sits`: so it is for every statement inside of a statement.
-/

namespace Stacklet

open Stacklet.Tree List

namespace Emit

mutual

/-- In the code of a statement that is lowered in a state, the code of the statement `u`, which is
lowered in the state `s'`, follows behind some instructions. -/
inductive Lowers (u : Tree) (s' : State) : Tree → State → List Instr → Prop
  | self : Lowers u s' u s' []
  | block (text : String) (loc : Loc) (ts : List Tree) (s : State) (before : List Instr) :
    LowersAll u s' ts s.enter before →
      Lowers u s' { kind := .block, text, loc, children := ts } s before
  | body (text : String) (loc : Loc) (c body : Tree) (rest : List Tree) (s : State)
      (before : List Instr) :
    Lowers u s' body (after (expression c .value) s.labelled.labelled) before →
    Lowers u s' { kind := .conditional, text, loc, children := c :: body :: rest } s
      (code (unlessTrue c s.labelled.label) s.labelled.labelled ++ before)
  | rest (text : String) (loc : Loc) (c body : Tree) (rest : List Tree) (s : State)
      (before : List Instr) :
    LowersBranches u s' s.label rest (after (branch c (statement body) s.label) s.labelled) before →
    Lowers u s' { kind := .conditional, text, loc, children := c :: body :: rest } s
      (code (branch c (statement body) s.label) s.labelled ++ before)
  | whileLoop (text : String) (loc : Loc) (c body : Tree) (s : State) (before : List Instr) :
    Lowers u s' body
      ((after (unlessTrue c s.labelled.label) s.labelled.labelled).within
        ⟨s.labelled.label, s.label⟩) before →
    Lowers u s' { kind := .whileLoop, text, loc, children := [c, body] } s
      (.label s.label :: (code (unlessTrue c s.labelled.label) s.labelled.labelled ++ before))
  | doWhile (text : String) (loc : Loc) (body c : Tree) (s : State) (before : List Instr) :
    Lowers u s' body (s.labelled.labelled.labelled.within
      ⟨s.labelled.labelled.label, s.labelled.label⟩) before →
    Lowers u s' { kind := .doWhile, text, loc, children := [body, c] } s (.label s.label :: before)
  | first (text : String) (loc : Loc) (first c step body : Tree) (s : State) (before : List Instr) :
    Lowers u s' first s.enter before →
    Lowers u s' { kind := .forLoop, text, loc, children := [first, c, step, body] } s before
  | forLoop (text : String) (loc : Loc) (first c step body : Tree) (s s₁ : State)
      (before : List Instr) :
    s₁ = after (statement first) s.enter →
    Lowers u s' body
      ((after (unlessOmitted c s₁.labelled.labelled.label) s₁.labelled.labelled.labelled).within
        ⟨s₁.labelled.labelled.label, s₁.labelled.label⟩) before →
    Lowers u s' { kind := .forLoop, text, loc, children := [first, c, step, body] } s
      (code (statement first) s.enter ++ Instr.label s₁.label ::
        (code (unlessOmitted c s₁.labelled.labelled.label) s₁.labelled.labelled.labelled ++ before))

/-- The same for statements in a row. -/
inductive LowersAll (u : Tree) (s' : State) : List Tree → State → List Instr → Prop
  | head (t : Tree) (ts : List Tree) (s : State) (before : List Instr) :
    Lowers u s' t s before → LowersAll u s' (t :: ts) s before
  | tail (t : Tree) (ts : List Tree) (s : State) (before : List Instr) :
    LowersAll u s' ts (after (statement t) s) before →
    LowersAll u s' (t :: ts) s (code (statement t) s ++ before)

/-- The same for what stands behind the first block of a conditional, whose end has the label
`done`. -/
inductive LowersBranches (u : Tree) (s' : State) :
    (done : String) → List Tree → State → List Instr → Prop
  | elseIf (done text : String) (loc : Loc) (c body : Tree) (ts : List Tree) (s : State)
      (before : List Instr) :
    Lowers u s' body (after (expression c .value) s.labelled) before →
    LowersBranches u s' done ({ kind := .elseIf, text, loc, children := [c, body] } :: ts) s
      (code (unlessTrue c s.label) s.labelled ++ before)
  | behind (done text : String) (loc : Loc) (c body : Tree) (ts : List Tree) (s : State)
      (before : List Instr) :
    LowersBranches u s' done ts (after (branch c (statement body) done) s) before →
    LowersBranches u s' done ({ kind := .elseIf, text, loc, children := [c, body] } :: ts) s
      (code (branch c (statement body) done) s ++ before)
  | last (done : String) (body : Tree) (s : State) (before : List Instr) :
    body.kind = .block → Lowers u s' body s before → LowersBranches u s' done [body] s before

end

end Emit

open Emit

variable {arity : String → Option Nat}

/-- Code inside of other code, with the stack empty before and behind it. -/
structure Sits (arity : String → Option Nat) (c before inner : List Instr) : Prop where
  exists_behind : ∃ behind, c = before ++ (inner ++ behind)
  before : Rises arity 0 before 0
  inner : Rises arity 0 inner 0

theorem Sits.around {c before inner : List Instr} (h : Sits arity c before inner)
    {c' ahead : List Instr} (hc : ∃ behind, c' = ahead ++ (c ++ behind))
    (ha : Rises arity 0 ahead 0) :
    Sits arity c' (ahead ++ before) inner := by
  obtain ⟨rest, rfl⟩ := h.exists_behind
  obtain ⟨behind, rfl⟩ := hc
  exact ⟨⟨rest ++ behind, by simp⟩, ha.append h.before, h.inner⟩

section Statements

variable {N : String → Prop} {ret : Option Ty}

variable {u : Tree} {s' : Emit.State} {before : List Instr}

mutual

/-- **Between statements the stack is empty.** The induction is on the way to the inner statement,
so that each kind of statement is looked at only where the way goes through it. -/
theorem Emit.Lowers.sits (hret : ∀ ty, ret = some ty → ty.IsValue) :
    ∀ {t : Tree} {s : Emit.State} {before : List Instr},
    Lowers u s' t s before → ∀ {loop : Bool} {Γ Γ' : Scopes}, Typed N ret loop Γ t Γ' →
    t.all indexesValue →
    Ready arity s Γ → Sits arity (code (statement t) s) before (code (statement u) s')
  | _, _, _, .self, _, _, _, ht, hall, hs => ⟨⟨[], by simp⟩, .nil, ht.rises hret hall hs⟩
  | _, _, _, .block _ loc ts s _ hl, _, _, _, ht, hall, hs => by
    cases ht with | block _ _ _ hb =>
    cases hb with | mk _ _ _ _ _ hts =>
    rw [statement_block, code_inScope]
    exact hl.sits hret hts (fun t ht => all_of_mem hall ht) hs.enter
  | _, _, _, .body _ loc c body rest s _ hl, _, _, _, ht, hall, hs => by
    cases ht with
    | block _ _ _ hb => cases hb
    | conditional _ _ _ _ _ _ hc hbody =>
    have hin := hl.sits hret (.block _ _ _ hbody) (all_of_mem hall (by simp))
      (hs.labelled.labelled.after (expression c .value))
    refine hin.around ?_ (rises_unlessTrue hc (all_of_mem hall (by simp)) hs.labelled.labelled _)
    rw [statement_conditional, code_conditional, code_bind, code_branch, code_unlessTrue]
    simp only [append_assoc, cons_append, nil_append]
    exact ⟨_, rfl⟩
  | _, _, _, .rest _ loc c body rest s _ hl, _, _, _, ht, hall, hs => by
    cases ht with
    | block _ _ _ hb => cases hb
    | conditional _ _ _ _ _ _ hc hbody hrest =>
    have hfirst := rises_branch hs.labelled hc (all_of_mem hall (by simp))
      (fun hs => hbody.rises hret (all_of_mem hall (by simp)) hs) s.label
    have hin := hl.sits hret hrest (fun t ht => all_of_mem hall (by simp [ht]))
      (hs.labelled.after (branch c (statement body) s.label))
    refine hin.around ⟨[.label s.label], ?_⟩ hfirst
    rw [statement_conditional, code_conditional, code_bind, append_assoc]
  | _, _, _, .whileLoop _ loc c body s _ hl, _, _, _, ht, hall, hs => by
    cases ht with
    | block _ _ _ hb => cases hb
    | whileLoop _ _ _ _ _ hc hbody =>
    have hs' := hs.labelled.labelled
    have htest :=
      (rises_label hs).cons (rises_unlessTrue hc (all_of_mem hall (by simp)) hs' s.labelled.label)
    have hin := hl.sits hret (.block _ _ _ hbody) (all_of_mem hall (by simp))
      ((hs'.after (unlessTrue c s.labelled.label)).within _)
    refine hin.around ⟨[.jump s.label, .label s.labelled.label], ?_⟩ htest
    rw [statement_whileLoop, code_whileLoop]
    simp
  | _, _, _, .doWhile _ loc body c s _ hl, _, _, _, ht, hall, hs => by
    cases ht with
    | block _ _ _ hb => cases hb
    | doWhile _ _ _ _ _ hbody =>
    have hin := hl.sits hret (.block _ _ _ hbody) (all_of_mem hall (by simp))
      (hs.labelled.labelled.labelled.within _)
    refine hin.around ?_ (rises_label hs)
    rw [statement_doWhile, code_doWhile]
    exact ⟨_, rfl⟩
  | _, _, _, .first _ loc first c step body s _ hl, _, _, _, ht, hall, hs => by
    cases ht with
    | block _ _ _ hb => cases hb
    | forLoop _ _ _ _ _ _ _ _ hfirst =>
    refine (hl.sits hret hfirst (all_of_mem hall (by simp)) hs.enter).around ?_ .nil
    rw [statement_forLoop, code_inScope, code_bind]
    exact ⟨_, rfl⟩
  | _, _, _, .forLoop _ loc first c step body s s₁ _ hs₁ hl, _, _, _, ht, hall, hs => by
    cases ht with
    | block _ _ _ hb => cases hb
    | forLoop _ _ Γ' _ _ _ _ _ hfirst hc hstep hbody =>
    have hready : Ready arity s₁ Γ' := hs₁ ▸ (hs.enter.adds hfirst.adds).after (statement first)
    have hs' := hready.labelled.labelled.labelled
    have htest := (rises_label hready).cons
      (rises_unlessOmitted hc (all_of_mem hall (by simp)) hs' s₁.labelled.labelled.label)
    have hin := hl.sits hret (.block _ _ _ hbody) (all_of_mem hall (by simp))
      ((hs'.after (unlessOmitted c s₁.labelled.labelled.label)).within _)
    refine Sits.around (c := code
      (forLoop loc (unlessOmitted c) (statement body) (expression step .effect)) s₁)
      ?_ ⟨[], ?_⟩ (hfirst.rises hret (all_of_mem hall (by simp)) hs.enter)
    · refine hin.around ?_ htest
      rw [code_forLoop]
      simp only [cons_append]
      exact ⟨_, rfl⟩
    · rw [statement_forLoop, code_inScope, code_bind, hs₁, append_nil]

theorem Emit.LowersAll.sits (hret : ∀ ty, ret = some ty → ty.IsValue) :
    ∀ {ts : List Tree} {s : Emit.State} {before : List Instr}, LowersAll u s' ts s before →
    ∀ {loop : Bool} {Γ Γ' : Scopes}, TypedAll N ret loop Γ ts Γ' →
    (∀ t ∈ ts, t.all indexesValue) → Ready arity s Γ → Sits arity (code (statements ts) s) before
    (code (statement u) s')
  | _, _, _, .head t ts s _ hl, _, _, _, .cons _ _ _ _ _ _ ht _, hall, hs => by
    rw [statements_cons, code_bind]
    exact (hl.sits hret ht (hall t mem_cons_self) hs).around ⟨_, rfl⟩ .nil
  | _, _, _, .tail t ts s _ hl, _, _, _, .cons _ _ _ _ _ _ ht hts, hall, hs => by
    obtain ⟨htAll, htsAll⟩ := forall_mem_cons.mp hall
    rw [statements_cons, code_bind]
    exact (hl.sits hret hts htsAll ((hs.adds ht.adds).after (statement t))).around
      ⟨[], by rw [append_nil]⟩
      (ht.rises hret htAll hs)

theorem Emit.LowersBranches.sits (hret : ∀ ty, ret = some ty → ty.IsValue) :
    ∀ {done : String} {ts : List Tree} {s : Emit.State} {before : List Instr},
    LowersBranches u s' done ts s before → ∀ {loop : Bool} {Γ : Scopes},
    TypedBranches N ret loop Γ ts → (∀ t ∈ ts, t.all indexesValue) → Ready arity s Γ →
    Sits arity (code (branches done ts) s) before (code (statement u) s')
  | _, _, _, _, .elseIf done _ loc c body ts s _ hl, _, _, ht, hall, hs => by
    cases ht with
    | last _ _ _ hbody => cases hbody
    | elseIf _ _ _ _ _ _ hc hbody hts =>
    have hfirst := (forall_mem_cons.mp hall).1
    have hin := hl.sits hret (.block _ _ _ hbody) (all_of_mem hfirst (by simp))
      (hs.labelled.after (expression c .value))
    rw [branches_elseIf, code_bind]
    refine hin.around ?_ (rises_unlessTrue hc (all_of_mem hfirst (by simp)) hs.labelled _)
    rw [code_branch, code_unlessTrue]
    simp only [append_assoc, cons_append, nil_append]
    exact ⟨_, rfl⟩
  | _, _, _, _, .behind done _ loc c body ts s _ hl, _, _, ht, hall, hs => by
    cases ht with
    | last _ _ _ hbody => cases hbody
    | elseIf _ _ _ _ _ _ hc hbody hts =>
    obtain ⟨hfirst, hrest⟩ := forall_mem_cons.mp hall
    rw [branches_elseIf, code_bind]
    exact (hl.sits hret hts hrest (hs.after (branch c (statement body) done))).around
      ⟨[], by rw [append_nil]⟩
      (rises_branch hs hc (all_of_mem hfirst (by simp))
        (fun hs => hbody.rises hret (all_of_mem hfirst (by simp)) hs) done)
  | _, _, _, _, .last done body s _ hk hl, _, _, ht, hall, hs => by
    cases ht with
    | elseIf => cases hk
    | last _ _ _ hbody =>
      rw [branches_block hbody]
      exact hl.sits hret (.block _ _ _ hbody) (hall body mem_cons_self) hs

end

end Statements

end Stacklet
