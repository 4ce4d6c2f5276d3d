import Stacklet.Proofs.Emission.Places
/-!
# The order of code

* `Emit.Precedes`: the code of a child of a node ends before that of another one begins.
* `TypedPart.precedes_or`: of two children of a statement, one precedes the other.
* `TypedPart.start_ne_store`: no expression begins with the store of a declared name.
-/

namespace Stacklet

open Emit List
open Stacklet.Tree hiding lower

/-- The code of the child with number `i` of a node ends before that of the child with number `j`
begins. -/
def Emit.Precedes (r : Role) (t : Tree) (s : State) (i : Nat) (c : Tree) (j : Nat) : Prop :=
  (code (ahead r t i) s).length + (code (lower (ahead r t i s).1 c)
    (after (ahead r t i) s)).length ≤
    (code (ahead r t j) s).length

section Children

variable {t c c' : Tree} {i j : Nat} {s : Emit.State} {part part' : Tree.Part} {r : Role}

theorem Emit.Precedes.of {r' r'' : Role} {s' s'' : State} {before before' : List Instr}
    (hi : Ahead r t i s r' before s') (hj : Ahead r t j s r'' before' s'')
    (h : ∃ rest, before' = before ++ (code (lower r' c) s' ++ rest)) : Precedes r t s i c j := by
  obtain ⟨rfl, rfl, rfl⟩ := hi
  obtain ⟨-, rfl, -⟩ := hj
  obtain ⟨rest, h⟩ := h
  rw [Precedes, h, length_append, length_append]
  omega

theorem getElem?_take_of_lt {ts : List Tree} (hij : i < j) (hc : ts[i]? = some c) :
    (ts.take j)[i]? = some c ∧ (ts.take j).take i = ts.take i :=
  ⟨by rw [List.getElem?_take_of_lt hij, hc],
    by rw [List.take_take, Nat.min_eq_left (Nat.le_of_lt hij)]⟩

theorem precedes_block (loc : Loc) {ts : List Tree} (hij : i < j) (hc : ts[i]? = some c) :
    Precedes .statement ⟨.block, "Block", false, loc, ts⟩ s i c j := by
  obtain ⟨hget, htake⟩ := getElem?_take_of_lt hij hc
  have hcode := code_statements_split s.enter hget
  rw [htake] at hcode
  exact .of (ahead_block loc s ts i) (ahead_block loc s ts j) ⟨_, hcode⟩

theorem precedes_declaration (loc : Loc) (ty : Tree) {ds : List Tree} (hij : i < j)
    (hc : ds[i]? = some c) :
    Precedes .statement ⟨.declaration, "VarDeclList", false, loc, ty :: ds⟩ s (i + 1) c
      (j + 1) := by
  obtain ⟨hget, htake⟩ := getElem?_take_of_lt hij hc
  have hcode := code_forM_split s (declarator (.ofTree ty)) hget
  rw [htake] at hcode
  exact .of (ahead_declaration loc s ty ds i) (ahead_declaration loc s ty ds j) ⟨_, hcode⟩

theorem precedes_conditional (loc : Loc) {cond first : Tree} {rest : List Tree} (hij : i < j)
    (hc : (cond :: first :: rest)[i]? = some c) :
    Precedes .statement ⟨.conditional, "If", false, loc, cond :: first :: rest⟩ s i c j := by
  match i, j with
  | 0, 1 =>
    cases hc
    exact .of (ahead_conditional_test loc s c first rest)
      (ahead_conditional_body loc s c first rest) ⟨_, rfl⟩
  | 0, j + 2 =>
    cases hc
    refine .of (ahead_conditional_test loc s c first rest)
      (ahead_conditional_rest loc s c first rest j) ?_
    rw [code_branch, append_assoc]
    exact ⟨_, rfl⟩
  | 1, j + 2 =>
    cases hc
    refine .of (ahead_conditional_body loc s cond c rest)
      (ahead_conditional_rest loc s cond c rest j) ?_
    rw [code_branch]
    simp only [append_assoc, cons_append, nil_append, lower_statement]
    exact ⟨_, rfl⟩
  | i + 2, j + 2 =>
    have hc : rest[i]? = some c := hc
    obtain ⟨hget, htake⟩ := getElem?_take_of_lt (show i < j by omega) hc
    have hcode := code_branches_split (after (branch cond (statement first) s.label) s.labelled)
      s.label hget
    rw [htake] at hcode
    refine .of (ahead_conditional_rest loc s cond first rest i)
      (ahead_conditional_rest loc s cond first rest j) ?_
    rw [hcode, ← append_assoc]
    exact ⟨_, rfl⟩

theorem precedes_elseIf (loc : Loc) (done : String) (cond body : Tree) :
    Precedes (.branch done) ⟨.elseIf, "ElseIf", false, loc, [cond, body]⟩ s 0 cond 1 :=
  .of (ahead_elseIf_test loc s cond body done) (ahead_elseIf_body loc s cond body done) ⟨_, rfl⟩

theorem precedes_whileLoop (loc : Loc) (cond body : Tree) :
    Precedes .statement ⟨.whileLoop, "While", false, loc, [cond, body]⟩ s 0 cond 1 :=
  .of (ahead_whileLoop_test loc s cond body) (ahead_whileLoop_body loc s cond body) ⟨_, rfl⟩

theorem precedes_doWhile (loc : Loc) (cond body : Tree) :
    Precedes .statement ⟨.doWhile, "DoWhile", false, loc, [body, cond]⟩ s 0 body 1 :=
  .of (ahead_doWhile_body loc s cond body) (ahead_doWhile_test loc s cond body) ⟨_, rfl⟩

section ForLoop

variable (loc : Loc) (first cond step body : Tree)

theorem precedes_forLoop_first (hj : 0 < j) (hc : [first, cond, step, body][j]? = some c) :
    Precedes .statement ⟨.forLoop, "For", false, loc, [first, cond, step, body]⟩ s 0 first j := by
  have hfirst := ahead_forLoop_first loc s first cond step body
  have hcode (rest : List Instr) : code (statement first) s.enter ++ rest =
      [] ++ (code (lower .statement first) s.enter.blank ++ rest) := by
    rw [lower_statement, code_blank]
    rfl
  match j with
  | 1 => exact .of hfirst (ahead_forLoop_test loc s first cond step body) ⟨_, hcode _⟩
  | 2 => exact .of hfirst (ahead_forLoop_step loc s first cond step body) ⟨_, hcode _⟩
  | 3 => exact .of hfirst (ahead_forLoop_body loc s first cond step body) ⟨_, hcode _⟩
  | _ + 4 => cases hc

theorem precedes_forLoop_test (hcond : cond.kind ≠ .empty) (hj : 1 < j)
    (hc : [first, cond, step, body][j]? = some c) :
    Precedes .statement ⟨.forLoop, "For", false, loc, [first, cond, step, body]⟩ s 1 cond j := by
  have htest := ahead_forLoop_test loc s first cond step body
  have hcode (done : String) (s' : State) : code (unlessOmitted cond done) s' =
      code (lower (.value .value) cond) s' ++ [Instr.jumpIfZero done] := by
    rw [unlessOmitted, if_neg hcond, code_unlessTrue]
    rfl
  obtain rfl | rfl : j = 2 ∨ j = 3 := by
    have : j < 4 := (List.getElem?_eq_some_iff.mp hc).1
    omega
  · refine .of htest (ahead_forLoop_step loc s first cond step body) ?_
    simp only [hcode, append_assoc, cons_append, nil_append]
    exact ⟨_, rfl⟩
  · refine .of htest (ahead_forLoop_body loc s first cond step body) ?_
    simp only [hcode, append_assoc, cons_append, nil_append]
    exact ⟨_, rfl⟩

theorem precedes_forLoop_body :
    Precedes .statement ⟨.forLoop, "For", false, loc, [first, cond, step, body]⟩ s 3 body 2 := by
  refine .of (ahead_forLoop_body loc s first cond step body)
    (ahead_forLoop_step loc s first cond step body) ?_
  simp only [append_assoc, cons_append]
  exact ⟨_, rfl⟩

end ForLoop

theorem eq_zero_or_one {u v : Tree} (hij : i ≠ j) (hc : [u, v][i]? = some c)
    (hc' : [u, v][j]? = some c') :
    i = 0 ∧ j = 1 ∨ i = 1 ∧ j = 0 := by
  have hi : i < 2 := (List.getElem?_eq_some_iff.mp hc).1
  have hj : j < 2 := (List.getElem?_eq_some_iff.mp hc').1
  omega

variable {N : String → Prop} {ret : Option Ty} {loop : Bool} {Γ Γ' : Scopes}

/-- **Of two children of a statement, one precedes the other.** -/
theorem Typed.precedes_or (h : Typed N ret loop Γ t Γ') (hij : i ≠ j) (hc : t.children[i]? = some c)
    (hc' : t.children[j]? = some c') (hpart : part? t.kind i c = some part)
    (hpart' : part? t.kind j c' = some part') :
    Precedes .statement t s i c j ∨ Precedes .statement t s j c' i := by
  have row {f : Nat → Nat → Tree → Prop} (hf : ∀ {i j c}, i < j → t.children[i]? = some c →
    f i j c) :
      f i j c ∨ f j i c' :=
    (Nat.lt_or_gt_of_ne hij).imp (hf · hc) (hf · hc')
  cases h with
  | omitted | breakStmt | continueStmt => cases hc
  | block _ _ _ hb =>
    obtain ⟨_, _, _, loc, ts, -⟩ := hb
    exact row (f := fun i j c => Precedes _ _ _ i c j) (precedes_block loc)
  | declaration _ _ _ loc ty ds =>
    rcases i with _ | i
    · cases hpart
    rcases j with _ | j
    · cases hpart'
    rcases Nat.lt_or_gt_of_ne hij with hlt | hlt
    · exact .inl (precedes_declaration loc ty (Nat.lt_of_succ_lt_succ hlt) hc)
    · exact .inr (precedes_declaration loc ty (Nat.lt_of_succ_lt_succ hlt) hc')
  | exprStmt | returnStmt =>
    have hi := (List.getElem?_eq_some_iff.mp hc).1
    have hj := (List.getElem?_eq_some_iff.mp hc').1
    simp only [length_cons, length_nil] at hi hj
    omega
  | conditional _ _ loc cond first rest =>
    exact row (f := fun i j c => Precedes _ _ _ i c j) (precedes_conditional loc)
  | whileLoop _ _ loc cond b =>
    rcases eq_zero_or_one hij hc hc' with ⟨rfl, rfl⟩ | ⟨rfl, rfl⟩
    · cases hc
      exact .inl (precedes_whileLoop loc c b)
    · cases hc'
      exact .inr (precedes_whileLoop loc c' b)
  | doWhile _ _ loc b cond =>
    rcases eq_zero_or_one hij hc hc' with ⟨rfl, rfl⟩ | ⟨rfl, rfl⟩
    · cases hc
      exact .inl (precedes_doWhile loc cond c)
    · cases hc'
      exact .inr (precedes_doWhile loc cond c')
  | forLoop _ _ Γ₁ loc first cond step b =>
    have hempty {u : Tree} {part : Tree.Part} (h : part? .forLoop 1 u = some part) :
        u.kind ≠ .empty := by
      intro hk
      simp [part?, hk] at h
    have hi : i < 4 := (List.getElem?_eq_some_iff.mp hc).1
    have hj : j < 4 := (List.getElem?_eq_some_iff.mp hc').1
    by_cases hfirst : i = 0 ∨ j = 0
    · rcases hfirst with rfl | rfl
      · cases hc
        exact .inl (precedes_forLoop_first loc c cond step b (by omega) hc')
      · cases hc'
        exact .inr (precedes_forLoop_first loc c' cond step b (by omega) hc)
    by_cases htest : i = 1 ∨ j = 1
    · rcases htest with rfl | rfl
      · cases hc
        exact .inl (precedes_forLoop_test loc first c step b (hempty hpart) (by omega) hc')
      · cases hc'
        exact .inr (precedes_forLoop_test loc first c' step b (hempty hpart') (by omega) hc)
    obtain ⟨rfl, rfl⟩ | ⟨rfl, rfl⟩ : i = 2 ∧ j = 3 ∨ i = 3 ∧ j = 2 := by omega
    · cases hc'
      exact .inr (precedes_forLoop_body loc first cond step c')
    · cases hc
      exact .inl (precedes_forLoop_body loc first cond step c)

theorem TypedBranches.precedes_or {done : String} (h : TypedBranches N ret loop Γ [t]) (hij : i ≠ j)
    (hc : t.children[i]? = some c) (hc' : t.children[j]? = some c')
    (hpart : part? t.kind i c = some part) (hpart' : part? t.kind j c' = some part') :
    Precedes (.branch done) t s i c j ∨ Precedes (.branch done) t s j c' i := by
  cases h with
  | last _ _ _ hbody =>
    unfold Precedes
    rw [ahead_branch, ahead_branch]
    exact (Typed.block loop Γ t hbody).precedes_or hij hc hc' hpart hpart'
  | elseIf _ _ loc cond body =>
    rcases eq_zero_or_one hij hc hc' with ⟨rfl, rfl⟩ | ⟨rfl, rfl⟩
    · cases hc
      exact .inl (precedes_elseIf loc done c body)
    · cases hc'
      exact .inr (precedes_elseIf loc done c' body)

theorem TypedPart.part_eq_expression {σ : Checker.State} (h : TypedPart N σ part t)
    (hplain : part = .declarator ∨ part = .expression) (hpart : part? t.kind i c = some part') :
    part' = .expression := by
  have hkind (k : Tree.Kind) (hk : part? k i c = some part')
      (hmem : k ∈ [.declarator, .number, .string, .identifier, .unary, .binary, .comma,
        .assign, .call, .index]) :
      part' = .expression := by
    unfold part? at hk
    split at hk <;> first
      | exact (Option.some.inj hk).symm
      | exact absurd hmem (by decide)
      | cases hk
  cases h with
  | declarator _ _ _ _ _ _ _ hd => cases hd <;> exact hkind _ hpart (by simp)
  | expression _ _ _ _ _ he => cases he <;> exact hkind _ hpart (by simp [nameAt])
  | _ => rcases hplain with hp | hp <;> cases hp

end Children

section Places

variable {N : String → Prop} {σ : Checker.State} {t u : Tree} {part part' : Tree.Part} {r : Role}

theorem TypedPart.part_eq_expression_of_cons {i : Nat} {p : List Nat} (h : TypedPart N σ part t)
    (hplain : part = .declarator ∨ part = .expression)
    (hp : partAt? (i :: p) part t = some (part', u)) :
    part' = .expression := by
  induction p generalizing i part t σ with
  | nil =>
    obtain ⟨c, part₁, -, hpart, hp⟩ := partAt?_cons hp
    cases hp
    exact h.part_eq_expression hplain hpart
  | cons j p ih =>
    obtain ⟨c, part₁, hc, hpart, hp⟩ := partAt?_cons hp
    exact ih (h.step hc hpart) (.inr (h.part_eq_expression hplain hpart)) hp

theorem TypedPart.stop_le {p : List Nat} (h : TypedPart N σ part t) (hr : r.Suits part t)
    (hp : partAt? p part t = some (part', u)) (s : Emit.State) :
    (code (Emit.reach p r t) s).length + (code (lower (Emit.reach p r t s).1 u)
      (after (Emit.reach p r t) s)).length ≤ (code (lower r t) s).length := by
  obtain ⟨-, behind, hcode, -⟩ := h.splits_reach hr hp s
  rw [hcode, length_append, length_append]
  omega

variable {d : Tree}

theorem code_declarator_pos (hr : r.Suits .declarator d) (s : Emit.State) :
    0 < (code (lower r d) s).length := by
  obtain ⟨ty⟩ := hr
  rw [lower, code_declarator, length_append, length_singleton]
  exact Nat.succ_pos _

theorem Emit.Splits.stop_lt_declarator {i : Nat} {c : Tree} {s : Emit.State}
    (h : Splits r d i part' c s) (hr : r.Suits .declarator d) :
    (code (ahead r d i) s).length + (code (lower (ahead r d i s).1 c)
      (after (ahead r d i) s)).length < (code (lower r d) s).length := by
  cases hr with | declarator ty =>
  have hwanted : (ahead (.declarator ty) d i s).1.Wanted := by
    rw [(ahead_initial d i s ty).role_eq]
    show (if d.isArray then Demand.value else .ofDouble (ty = .double)) ≠ .effect
    split
    · simp
    · cases decide (ty = .double) <;> simp [Demand.ofDouble]
  obtain ⟨behind, hcode, hopens⟩ := h.code_eq
  rcases hopens hwanted with ⟨instr, rest, rfl, -⟩ | ⟨-, hfalse⟩
  · rw [hcode, length_append, length_append, length_cons]
    omega
  · exact hfalse.elim

/-- **No expression begins with the store of a declared name**, which is the last instruction of its
code. -/
theorem TypedPart.start_ne_store {p q : List Nat} (h : TypedPart N σ part t) (hr : r.Suits part t)
    (hinner : part.IsInner) (hparam : part ≠ .parameter) (s : Emit.State)
    (hp : partAt? p part t = some (.expression, u)) (hq : partAt? q part t = some (.declarator, d))
    (hu : 0 < (code (lower (Emit.reach p r t s).1 u) (after (Emit.reach p r t) s)).length) :
    (code (Emit.reach p r t) s).length + 1 ≠
      (code (Emit.reach q r t) s).length + (code (lower (Emit.reach q r t s).1 d)
        (after (Emit.reach q r t) s)).length := by
  induction p generalizing q part t σ r s with
  | nil =>
    -- no name is declared in an expression
    cases hp
    match q with
    | [] => cases hq
    | j :: q => cases h.part_eq_expression_of_cons (.inr rfl) hq
  | cons i p ih =>
    obtain ⟨c, part₁, hc, hpart, hp⟩ := partAt?_cons hp
    have hsplit := h.splits hr s hc hpart
    have hstop := (h.step hc hpart).stop_le hsplit.suits hp (after (ahead r t i) s)
    rw [reach_cons hc, result_bind, after_bind] at hu
    rw [reach_cons hc, code_bind, length_append]
    match q with
    | [] =>
      cases hq
      have hlt := hsplit.stop_lt_declarator hr
      simp only [Emit.reach, code_pure, after_pure, code_blank, length_nil, Nat.zero_add]
      show _ ≠ (code (lower r d) s).length
      omega
    | j :: q =>
      have hat := hq
      obtain ⟨c', part₂, hc', hpart', hq⟩ := partAt?_cons hq
      have hsplit' := h.splits hr s hc' hpart'
      have hstop' := (h.step hc' hpart').stop_le hsplit'.suits hq (after (ahead r t j) s)
      have hpos := code_declarator_pos
        ((h.step hc' hpart').splits_reach hsplit'.suits hq (after (ahead r t j) s)).1
        (after (Emit.reach q (ahead r t j s).1 c') (after (ahead r t j) s))
      rw [reach_cons hc', code_bind, result_bind, after_bind, length_append]
      by_cases hij : i = j
      · subst hij
        cases hc.symm.trans hc'
        cases hpart.symm.trans hpart'
        obtain ⟨hprogram, hfunction⟩ := h.kind_ne hinner
        have := ih (h.step hc hpart) hsplit.suits (part?_isInner hprogram hpart)
          (part?_ne_parameter hfunction hpart)
          (after (ahead r t i) s) hp hq hu
        omega
      · -- the code of one of the two children stands before that of the other one
        have hor : Precedes r t s i c j ∨ Precedes r t s j c' i := by
          have hplain := fun hplain => h.part_eq_expression_of_cons hplain hat
          cases h with
          | program => exact absurd rfl hinner.1
          | function | item => exact absurd rfl hinner.2
          | parameter => exact absurd rfl hparam
          | statement _ _ _ _ _ ht =>
            cases hr
            exact ht.precedes_or hij hc hc' hpart hpart'
          | branch _ _ _ _ ht =>
            obtain ⟨done⟩ := hr
            exact ht.precedes_or hij hc hc' hpart hpart'
          | declarator => cases hplain (.inl rfl)
          | expression => cases hplain (.inr rfl)
        unfold Precedes at hor
        omega

end Places

end Stacklet
